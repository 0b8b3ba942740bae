import MiniJava.Proofs.Hierarchy.Chains
import MiniJava.Proofs.Semantics.Machine

/-!
# Execution of programs

A program is a runtime for its own methods. An object has the fields of all classes on the chain of its
class, by name; where a class declares a field again, the nearest declaration counts. A call executes
the first method of that name on the chain of the receiver's class.
-/

namespace MiniJava.Ssa

def Method.onCells (budget : Nat) (m : Method) (act : Activation) : Effect Value :=
  (cellMachine m.body act).exec budget

def Method.onRegisters (budget : Nat) (m : Method) (act : Activation) : Effect Value :=
  (registerMachine m.body act).exec budget

namespace Program

/-- A new object of a class, with the fields of the nearest class first. -/
def construct? (p : Program) (className : String) : Option HeapCell :=
  (p.class? className).map fun _ =>
    .object className ((p.chain className).flatMap fun c => c.fields.map fun f =>
      (f.name, .initial f.decl))

def dispatch? (p : Program) (className method : String) : Option Method :=
  (p.chain className).findSome? (·.method? method)

/-- The runtime that a program is for its methods, up to a depth of calls. -/
def runtime (p : Program) (exec : Method → Activation → Effect Value) : Nat → Runtime
  | 0 => ⟨p.construct?, fun _ _ _ _ => throw .unfinished⟩
  | depth + 1 => ⟨p.construct?, fun className method receiver args =>
      match p.dispatch? className method with
      | some m => exec m ⟨p.runtime exec depth, some receiver, args⟩
      | none => fault .unknownName⟩

def run (p : Program) (exec : Method → Activation → Effect Value) (depth : Nat) : Effect Value :=
  exec p.main ⟨p.runtime exec depth, none, []⟩

end Program

/-! ## Programs that match -/

namespace Program.Matches

variable {R : Method → Method → Prop} {p q : Program} {exec exec' : Method → Activation → Effect Value}

theorem construct?_eq (h : p.Matches R q) (className : String) :
    q.construct? className = p.construct? className := by
  have hfields : ∀ {cs ds : List ClassDef}, List.Forall₂ (ClassDef.Matches R) cs ds →
      (ds.flatMap fun c => c.fields.map fun f => (f.name, Value.initial f.decl)) =
        cs.flatMap fun c => c.fields.map fun f => (f.name, Value.initial f.decl) := by
    intro cs ds hcs
    induction hcs with
    | nil => rfl
    | cons hc _ ih => rw [List.flatMap_cons, List.flatMap_cons, hc.fields_eq, ih]
  rw [construct?, construct?, hfields (h.chain className)]
  rcases h.class? className with ⟨hp, hq⟩ | ⟨c, d, _, hp, hq⟩
  · rw [hp, hq]
  · rw [hp, hq]
    rfl

theorem dispatch? (h : p.Matches R q) (hname : ∀ m m', R m m' → m'.name = m.name)
    (className method : String) :
    p.dispatch? className method = none ∧ q.dispatch? className method = none ∨
      ∃ m m', R m m' ∧ p.dispatch? className method = some m ∧
        q.dispatch? className method = some m' :=
  findSome?_forall₂ (h.chain className) fun _ _ hcd => hcd.method? hname method

theorem runtime_eq (h : p.Matches R q) (hname : ∀ m m', R m m' → m'.name = m.name)
    (hexec : ∀ m m', R m m' → exec m = exec' m') (depth : Nat) :
    p.runtime exec depth = q.runtime exec' depth := by
  have hconstruct : q.construct? = p.construct? := funext h.construct?_eq
  induction depth with
  | zero => rw [runtime, runtime, hconstruct]
  | succ depth ih =>
    rw [runtime, runtime, hconstruct, ih]
    congr 1
    funext className method receiver args
    rcases h.dispatch? hname className method with ⟨hp, hq⟩ | ⟨m, m', hr, hp, hq⟩
    · rw [hp, hq]
    · rw [hp, hq]
      exact congrFun (hexec m m' hr) _

/-- **Programs that match method by method do the same.** -/
theorem run_eq_run (h : p.Matches R q) (hname : ∀ m m', R m m' → m'.name = m.name)
    (hexec : ∀ m m', R m m' → exec m = exec' m') (depth : Nat) :
    p.run exec depth = q.run exec' depth := by
  rw [run, run, h.runtime_eq hname hexec, hexec _ _ h.main]

end Program.Matches

end MiniJava.Ssa
