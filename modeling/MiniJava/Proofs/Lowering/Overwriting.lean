import MiniJava.Proofs.Cells
import MiniJava.Proofs.Lowering.Operands

/-!
# Operands that are overwritten before they are read

A value that is bound to a local is copied if a later operand may assign the local. An operand that
assigns a local to itself, as `x = x`, has the value of a statement that held the local before: it is
not bound to the local any more and so is not copied. If a later operand assigns the local again and
a join ties the two statements together, the operand is overwritten before it is read.
-/

namespace MiniJava

open Ast Ssa List

/-! ## Syntax trees -/

namespace Ast

mutual

def Expr.subterms : Expr → List Expr
  | .assign target value => .assign target value :: (target.subterms ++ value.subterms)
  | .binary op left right => .binary op left right :: (left.subterms ++ right.subterms)
  | .not operand => .not operand :: operand.subterms
  | .index target i => .index target i :: (target.subterms ++ i.subterms)
  | .member target name => .member target name :: target.subterms
  | .call target method args =>
    .call target method args :: (target.subterms ++ argsSubterms args)
  | .newIntArray size => .newIntArray size :: size.subterms
  | .newObject name => [.newObject name]
  | .this => [.this]
  | .var name => [.var name]
  | .intLit n => [.intLit n]
  | .boolLit b => [.boolLit b]

def argsSubterms : List Expr → List Expr
  | [] => []
  | e :: es => e.subterms ++ argsSubterms es

end

namespace Expr

def isAssignmentTo (x : String) : Expr → Bool
  | .assign (.var y) _ => y == x
  | _ => false

def assigns (e : Expr) (x : String) : Bool := e.subterms.any (isAssignmentTo x)

def yields (x : String) : Expr → Bool
  | .var y => y == x
  | .assign _ value => value.yields x
  | _ => false

/-- Whether the value of the expression is read from a variable that the expression then assigns. -/
def selfAssigns (x : String) : Expr → Bool
  | .assign (.var y) value => (y == x && value.yields x) || value.selfAssigns x
  | .assign _ value => value.selfAssigns x
  | _ => false

/-- No operand that assigns a local to itself is followed by one that assigns the local. -/
def KeepsOperands (names : List String) (e : Expr) : Prop :=
  ∀ f ∈ e.subterms, f.operands.Pairwise fun a b =>
    ∀ x ∈ names, a.selfAssigns x = true → b.assigns x = false

instance (names : List String) (e : Expr) : Decidable (e.KeepsOperands names) :=
  inferInstanceAs (Decidable (∀ f ∈ e.subterms, _))

theorem mem_subterms (e : Expr) : e ∈ e.subterms := by
  cases e <;> simp [subterms]

theorem mem_argsSubterms {f : Expr} {es : List Expr} :
    f ∈ argsSubterms es ↔ ∃ e ∈ es, f ∈ e.subterms := by
  induction es with
  | nil => simp [argsSubterms]
  | cons e es ih => simp [argsSubterms, ih]

@[simp] theorem any_argsSubterms (p : Expr → Bool) (es : List Expr) :
    (argsSubterms es).any p = es.any (·.subterms.any p) := by
  induction es with
  | nil => rfl
  | cons e es ih => simp [argsSubterms, ih]

theorem subterms_of_mem_operands {e f g : Expr} (hf : f ∈ e.operands) (hg : g ∈ f.subterms) :
    g ∈ e.subterms := by
  cases e with
  | assign target value =>
    cases target <;> simp only [operands, mem_cons, not_mem_nil, or_false] at hf <;>
      grind [subterms]
  | call target method args =>
    simp only [subterms, mem_cons, mem_append, mem_argsSubterms]
    rcases mem_cons.1 hf with rfl | hf
    · exact Or.inr (Or.inl hg)
    · exact Or.inr (Or.inr ⟨f, hf, hg⟩)
  | _ => grind [operands, subterms]

theorem subterms_cases {e f : Expr} (hf : f ∈ e.subterms) :
    (∃ target value, e = .assign target value) ∨ f = e ∨ ∃ g ∈ e.operands, f ∈ g.subterms := by
  cases e with
  | assign target value => exact Or.inl ⟨target, value, rfl⟩
  | call target method args =>
    simp only [subterms, mem_cons, mem_append, mem_argsSubterms] at hf
    rcases hf with rfl | hf | ⟨g, hg, hf⟩
    · exact Or.inr (Or.inl rfl)
    · exact Or.inr (Or.inr ⟨target, mem_cons_self, hf⟩)
    · exact Or.inr (Or.inr ⟨g, mem_cons_of_mem _ hg, hf⟩)
  | _ => grind [operands, subterms]

theorem KeepsOperands.nil (e : Expr) : e.KeepsOperands [] :=
  fun _ _ => pairwise_of_forall fun _ _ _ hx => absurd hx not_mem_nil

theorem KeepsOperands.of_mem_operands {names : List String} {e f : Expr}
    (h : e.KeepsOperands names) (hf : f ∈ e.operands) : f.KeepsOperands names :=
  fun g hg => h g (subterms_of_mem_operands hf hg)

theorem KeepsOperands.pairwise {names : List String} {e : Expr} (h : e.KeepsOperands names) :
    e.operands.Pairwise fun a b => ∀ x ∈ names, a.selfAssigns x = true → b.assigns x = false :=
  h e e.mem_subterms

theorem assigns_of_mem_operands {e f : Expr} {x : String} (hf : f ∈ e.operands)
    (h : f.assigns x = true) : e.assigns x = true := by
  obtain ⟨g, hg, hx⟩ := any_eq_true.1 h
  exact any_eq_true.2 ⟨g, subterms_of_mem_operands hf hg, hx⟩

theorem assigns_assign_var (x y : String) (value : Expr) :
    (Expr.assign (.var x) value).assigns y = (x == y || value.assigns y) := by
  simp [assigns, subterms, isAssignmentTo]

theorem assigns_assign (x : String) (value : Expr) :
    (Expr.assign (.var x) value).assigns x = true := by
  simp [assigns_assign_var]

theorem anyAssignment_of_mem {f : Expr} {es : List Expr} (hf : f ∈ es)
    (h : f.hasAssignment = true) : anyAssignment es = true := by
  induction es with
  | nil => cases hf
  | cons e es ih =>
    rw [anyAssignment, Bool.or_eq_true]
    rcases mem_cons.1 hf with rfl | hf
    · exact Or.inl h
    · exact Or.inr (ih hf)

theorem hasAssignment_of_mem_operands {e f : Expr} (hf : f ∈ e.operands)
    (h : f.hasAssignment = true) : e.hasAssignment = true := by
  cases e with
  | assign => simp [hasAssignment]
  | call target method args =>
    rw [hasAssignment, Bool.or_eq_true]
    rcases mem_cons.1 hf with rfl | hf
    · exact Or.inl h
    · exact Or.inr (anyAssignment_of_mem hf h)
  | _ => grind [operands, hasAssignment]

theorem hasAssignment_of_assigns {x : String} {e : Expr} (h : e.assigns x = true) :
    e.hasAssignment = true := by
  induction e using Expr.operandInduction with
  | step e ih =>
    obtain ⟨f, hf, hx⟩ := any_eq_true.1 h
    rcases subterms_cases hf with ⟨_, _, rfl⟩ | rfl | ⟨g, hg, hf⟩
    · simp [hasAssignment]
    · unfold isAssignmentTo at hx
      split at hx
      · simp [hasAssignment]
      · cases hx
    · exact hasAssignment_of_mem_operands hg (ih g hg (any_eq_true.2 ⟨f, hf, hx⟩))

end Expr

end Ast

/-! ## Code -/

/-- A statement reads an operand whose cell was assigned another value after the operand, with no
label between the assignment and the statement. -/
def Ssa.Body.ReadsOverwritten (body : Body) : Prop :=
  ∃ (i j p : Nat) (s t : Statement) (o : StmtId), body[p]? = some s ∧ o ∈ s.reads ∧
    body.lastPosition? o = some i ∧ i < j ∧ j < p ∧ body[j]? = some t ∧ t.op = .assignVar ∧
    t.left? ≠ some o ∧ body.cell? t.id = body.cell? o ∧
    ∀ l k, (l, k) ∈ body.labels → ¬ (j < k ∧ k < p)

end MiniJava
