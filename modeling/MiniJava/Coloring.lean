import MiniJava.Interference

/-!
# Coloring

Variables get colors such that neighbours differ. Pinned variables keep their pins. The others are
removed from the graph one by one: the lowest variable with fewer neighbours than there are colors, or
else a potential spill, which is the candidate with the most neighbours. Then they are put back and
get the lowest color that no neighbour has: first the variables of low degree in reverse order, which
always find one among the variables put back before them, then the potential spills. A potential spill
that is no candidate has nowhere else to go, so it comes before the candidates.
-/

namespace MiniJava

open Ssa List

/-- A graph, the pins of its variables, the number of colors and the variables that may be spilled. -/
structure ColoringProblem where
  graph : InterferenceGraph
  pins : List (Option Pin)
  colors : Nat
  candidates : VarSet

/-- A variable removed from the graph, and whether its degree was low. -/
structure Removal where
  var : Nat
  low : Bool
  deriving DecidableEq, Repr

/-- The color of each variable, and the variables without pin that have none. -/
structure Coloring where
  colors : List (Option Nat)
  uncolored : List Nat
  deriving DecidableEq, Repr

/-- The first element of a list with the highest weight. -/
def heaviest? (weight : Nat → Nat) : List Nat → Option Nat
  | [] => none
  | v :: vs =>
    match heaviest? weight vs with
    | some w => if weight w ≤ weight v then some v else some w
    | none => some v

theorem mem_of_heaviest? {weight : Nat → Nat} {vs : List Nat} {v : Nat}
    (h : heaviest? weight vs = some v) : v ∈ vs := by
  induction vs generalizing v with
  | nil => cases h
  | cons w ws ih =>
    unfold heaviest? at h
    split at h
    · rename_i u hu
      split at h
      · cases h
        exact mem_cons_self
      · cases h
        exact mem_cons_of_mem _ (ih hu)
    · cases h
      exact mem_cons_self

/-- The lowest color below `k` that is not taken. There is a free one among the first `n + 1` if `n`
are taken. -/
def lowestFree? (k : Nat) (taken : List Nat) : Option Nat :=
  (range (min k (taken.length + 1))).find? fun c => !taken.contains c

namespace ColoringProblem

def pin? (p : ColoringProblem) (v : Nat) : Option Pin := (p.pins[v]?).join

def pinnedRegister? (p : ColoringProblem) (v : Nat) : Option Nat := (p.pin? v).bind Pin.register?

def unpinned (p : ColoringProblem) : List Nat :=
  (range p.graph.size).filter fun v => (p.pin? v).isNone

def pinnedToRegister (p : ColoringProblem) : VarSet :=
  .ofList ((range p.graph.size).filter fun v => (p.pinnedRegister? v).isSome)

/-- The number of neighbours of a variable in a set. -/
def degree (p : ColoringProblem) (present : VarSet) (v : Nat) : Nat :=
  ((p.graph.neighbours v).filter present.contains).length

/-- The variable to remove next. Neighbours that are pinned to a register take up a color too. -/
def pick? (p : ColoringProblem) (active : VarSet) : Option Removal :=
  let degree := p.degree (active.union p.pinnedToRegister)
  let vs := active.toList
  match vs.find? (degree · < p.colors) with
  | some v => some ⟨v, true⟩
  | none =>
    match heaviest? degree (vs.filter p.candidates.contains) with
    | some v => some ⟨v, false⟩
    | none => (heaviest? degree vs).map (⟨·, false⟩)

theorem mem_of_pick? {p : ColoringProblem} {active : VarSet} {r : Removal}
    (h : p.pick? active = some r) : r.var ∈ active := by
  simp only [pick?] at h
  split at h
  · rename_i v hv
    cases h
    simpa using mem_of_find?_eq_some hv
  · split at h
    · rename_i v hv
      cases h
      simpa using (mem_filter.1 (mem_of_heaviest? hv)).1
    · obtain ⟨v, hv, rfl⟩ := Option.map_eq_some_iff.1 h
      simpa using mem_of_heaviest? hv

/-- The removals from a set of variables, in order. -/
def removalsFrom (p : ColoringProblem) (active : VarSet) : List Removal :=
  match _ : p.pick? active with
  | none => []
  | some r => r :: p.removalsFrom (active.erase r.var)
termination_by active.bits
decreasing_by exact VarSet.bits_erase_lt (mem_of_pick? ‹_›)

/-- The removals of all variables without pin, in order. -/
def removals (p : ColoringProblem) : List Removal := p.removalsFrom (.ofList p.unpinned)

def selection (p : ColoringProblem) : List Nat :=
  let removals := p.removals
  let low := (removals.filter (·.low)).map (·.var)
  let potential := (removals.filter (!·.low)).map (·.var)
  low.reverse ++ potential.filter (!p.candidates.contains ·) ++
    potential.filter p.candidates.contains

/-- Gives a variable the lowest color that no neighbour has. -/
def select (p : ColoringProblem) (colors : Array (Option Nat)) (v : Nat) : Array (Option Nat) :=
  let taken := (p.graph.neighbours v).filterMap fun u => colors.getD u none
  colors.setIfInBounds v (lowestFree? p.colors taken)

def pinColors (p : ColoringProblem) : Array (Option Nat) :=
  ((range p.graph.size).map p.pinnedRegister?).toArray

def solve (p : ColoringProblem) : Coloring :=
  let colors := p.selection.foldl p.select p.pinColors
  { colors := colors.toList
    uncolored := p.unpinned.filter fun v => (colors.getD v none).isNone }

end ColoringProblem

end MiniJava
