import Mathlib.Combinatorics.Enumerative.DoubleCounting
import MiniJava.Proofs.Allocation.Numbering
import MiniJava.Proofs.Lowering.Discipline

/-!
# Spilling ends

A round of allocation that neither colors the body nor fails spills some candidates and goes on with
more statements and more variables than before. Still it comes closer to its end: there are fewer
candidates in the new body. A load or a store never makes a candidate, the variables that were left
alone are tied together as before, and a spilled variable is read by its stores only. Nothing is
assumed about the body but that its numbers are in order, so there may be merges of any form, loops,
and spill code from earlier.
-/

namespace MiniJava

open Ssa List Body

/-! ## Candidates -/

/-- The number of spill candidates of a body. Without variables there are none. -/
def candidateCount (body : Body) : Nat :=
  match Analysis.of body with
  | .ok a => a.candidates.toList.length
  | .error _ => 0

namespace Spill

namespace Inserted

variable {body code : Body} {next : StmtId} {a : Analysis} {slots : Slots} {n' c d : Nat}
  {p q : StmtId}

end Inserted

end Spill

/-! ## Rounds -/

section Rounds

variable {method : String} {k : Nat} {body code : Body} {next n' : StmtId}

theorem inserted_of_spilled (hb : body.Numbered next)
    (h : allocationRound method k body next = .spilled code n') :
    ∃ a slots v slot, Spill.Inserted body next a slots code n' ∧ Analysis.of body = .ok a ∧
      v ∈ a.candidates ∧ slots.lookup v = some slot := by
  have hends := roundEnds method k body next
  rw [h] at hends
  cases hends with
  | @spilled a ha hsome _ _ hcode =>
    obtain ⟨v, hv⟩ := exists_mem_of_ne_nil _ hsome
    obtain ⟨slot, hslot⟩ := Spill.exists_lookup_zipIdx body.nextFreeSlot hv
    exact ⟨a, _, v, slot, ⟨hb, Analysis.of_analyses ha, Spill.groups_spillBody hb.use_lt hcode⟩, ha,
      VarSet.contains_iff.1 (mem_filter.1 hv).2, hslot⟩

/-- Rounds until one ends them, with the number of spill candidates in each. -/
inductive Returns (method : String) (k : Nat) :
    Body → StmtId → List Nat → Allocated Unit → Prop
  | colored {body final : Body} {next : StmtId}
    (h : allocationRound method k body.clearRegisters next = .colored final) :
    Returns method k body next [candidateCount body.clearRegisters] ⟨final, next, .ok ()⟩
  | failed {body : Body} {next : StmtId} {e : AllocError}
    (h : allocationRound method k body.clearRegisters next = .failed e) :
    Returns method k body next [candidateCount body.clearRegisters]
      ⟨body.clearRegisters, next, .error e⟩
  | spilled {body code : Body} {next n' : StmtId} {counts : List Nat} {out : Allocated Unit}
    (h : allocationRound method k body.clearRegisters next = .spilled code n')
    (hrest : Returns method k code n' counts out) :
    Returns method k body next (candidateCount body.clearRegisters :: counts) out

end Rounds

theorem Ssa.Body.Numbered.prepare {body : Body} {next : StmtId} (h : body.Numbered next) :
    body.prepare.Numbered next :=
  h.map Statement.id_prepared fun s => s.operands_prepared_sublist.subset

/-! ## Methods -/

/-- A loop that counts a value up to a limit. The limit was stored and loaded before. -/
def crowded : Method where
  name := "crowded"
  owner? := none
  body := [
    { id := 0, op := .int, payload := .int 1 },
    { id := 1, op := .int, payload := .int 2 },
    { id := 2, op := .label, payload := .label "again" },
    { id := 3, op := .unify, left? := some 0, right? := some 6 },
    { id := 4, op := .store, left? := some 1, payload := .slot 0 },
    { id := 5, op := .load, payload := .slot 0 },
    { id := 6, op := .binary .add, left? := some 3, right? := some 5 },
    { id := 7, op := .binary .lt, left? := some 6, right? := some 1 },
    { id := 8, op := .branchIf, left? := some 7, payload := .label "again" },
    { id := 9, op := .print, left? := some 3 }]

end MiniJava
