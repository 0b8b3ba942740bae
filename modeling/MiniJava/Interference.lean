import MiniJava.Liveness

/-!
# Interference

Two variables interfere if they hold values at the same time: both are live after some statement, or
one is written by a statement after which the other is live.
-/

namespace MiniJava

/-- A graph over variables: the neighbours of each, in ascending order. -/
structure InterferenceGraph where
  rows : Array (List Nat)
  deriving DecidableEq, Repr

namespace InterferenceGraph

def size (g : InterferenceGraph) : Nat := g.rows.size

def neighbours (g : InterferenceGraph) (v : Nat) : List Nat := g.rows.getD v []

/-- The variables that hold a value after each statement: any two of them interfere. -/
def cliques (live : Liveness) : List VarSet :=
  (live.liveOut.zip live.defs).map fun (out, def?) =>
    match def? with
    | some v => out.insert v
    | none => out

/-- The neighbours of a variable in a union of cliques. -/
def row (cliques : List VarSet) (v : Nat) : List Nat :=
  ((VarSet.unions (cliques.filter (·.contains v))).erase v).toList

/-- The interference graph of a body with so many variables. -/
def build (varCount : Nat) (live : Liveness) : InterferenceGraph :=
  ⟨((List.range varCount).map (row (cliques live))).toArray⟩

theorem mem_row {cliques : List VarSet} {u v : Nat} :
    u ∈ row cliques v ↔ (∃ c ∈ cliques, v ∈ c ∧ u ∈ c) ∧ u ≠ v := by
  simp [row, and_assoc]

end InterferenceGraph

end MiniJava
