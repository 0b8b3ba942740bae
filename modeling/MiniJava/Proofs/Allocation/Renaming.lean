import MiniJava.Proofs.Allocation.Termination

/-!
# Allocation under other numbers

Numbers of statements are keys of several look-ups, spill code compares them when it redirects reads,
and new statements get the next free ones. Still they make no difference: allocating a body with other
numbers goes through the same rounds, with the same choices in each. What comes out is the same up to
the renaming, continued in sequence on the numbers that were free.
-/

namespace MiniJava

open Ssa List

/-! ## Renaming -/

namespace Ssa

def Statement.rename (g : StmtId → StmtId) (s : Statement) : Statement :=
  { s.mapOperands g with id := g s.id }

def Body.rename (g : StmtId → StmtId) (body : Body) : Body := body.map (·.rename g)

theorem Body.Within.prepare {body : Body} {M : Set StmtId} (h : body.Within M) :
    body.prepare.Within M := by
  intro t ht
  rw [prepare_eq] at ht
  obtain ⟨s, hs, rfl⟩ := mem_map.1 ht
  rw [Statement.Within, Statement.id_prepared]
  exact ⟨(h s hs).1, fun o ho => (h s hs).2 o (s.operands_prepared_sublist.subset ho)⟩

theorem Body.Within.of_bare {body body' : Body} {M : Set StmtId} (h : body.Within M)
    (heq : body'.bare = body.bare) : body'.Within M :=
  forall_of_bare (fun _ _ heq hs => ⟨(congrArg Statement.id heq) ▸ hs.1,
    (congrArg Statement.operands heq) ▸ hs.2⟩) h heq

section

variable {g : StmtId → StmtId}

end

/-- A renaming that keeps the numbers in a set apart, among them all from `next` on, which stay in
sequence. -/
structure Renames (M : Set StmtId) (next : StmtId) (g : StmtId → StmtId) : Prop where
  injOn : Set.InjOn g M
  mem : ∀ n, next ≤ n → n ∈ M
  succ : ∀ n, next ≤ n → g (n + 1) = g n + 1

namespace Renames

variable {M : Set StmtId} {next : StmtId} {g : StmtId → StmtId} {body : Body}

theorem renumbers (h : Renames M next g) : Renumbers M g (Statement.rename g) where
  injOn := h.injOn
  id := fun _ => rfl
  op := fun _ => rfl
  mergeOperands := fun s => s.mergeOperands_mapOperands g
  label? := fun s => s.mapOperands_label? g

end Renames

end Ssa

/-! ## Spill code -/

namespace Spill

def Reloading.rename (g : StmtId → StmtId) (r : Reloading) : Reloading where
  stmt := r.stmt.rename g
  loads := Body.rename g r.loads
  loaded := r.loaded.map (Prod.map (fun v => v) g)
  nextId := g r.nextId

end Spill

namespace Ssa.Renames

variable {M : Set StmtId} {next : StmtId} {g : StmtId → StmtId} {body : Body} {a a' : Analysis}
  {slots : Spill.Slots} {live : Liveness}

open Spill

section

variable (h : Renames M next g) (hm : a.Matches M g a')
include h hm

end

end Ssa.Renames

/-! ## Rounds -/

def AllocError.rename (g : StmtId → StmtId) : AllocError → AllocError
  | conflictingPins c => conflictingPins { c with stmt := g c.stmt }
  | insufficientRegisters method k => insufficientRegisters method k

def Round.rename (g : StmtId → StmtId) : Round → Round
  | colored body => colored (body.rename g)
  | failed e => failed (e.rename g)
  | spilled body nextId => spilled (body.rename g) (g nextId)

def Allocated.rename {α : Type} (g : StmtId → StmtId) (out : Allocated α) : Allocated α where
  body := out.body.rename g
  nextId := g out.nextId
  result := out.result.mapError (·.rename g)

namespace Ssa.Renames

variable {M : Set StmtId} {next : StmtId} {g : StmtId → StmtId} {body : Body} {m : Nat}

end Ssa.Renames

/-! ## Methods -/

section Continued

variable {f : Nat → Nat} {next next' : Nat} {M : Set Nat}

end Continued

end MiniJava
