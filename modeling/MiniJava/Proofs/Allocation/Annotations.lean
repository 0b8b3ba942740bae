import MiniJava.Proofs.Allocation.Renumbering

/-!
# Annotations

Types and registers are written on statements by other passes. They say nothing about what a body
does: its cells, its live ranges and its discipline are those of the *bare* body without them. So
bodies that differ in annotations only are interchangeable wherever allocation looks.
-/

namespace MiniJava

open Ssa List

namespace Ssa

def Statement.bare (s : Statement) : Statement := { s with type? := none, register? := none }

def Body.bare (body : Body) : Body := body.map (·.bare)

namespace Statement

@[simp] theorem id_bare (s : Statement) : s.bare.id = s.id := rfl

@[simp] theorem op_bare (s : Statement) : s.bare.op = s.op := rfl

end Statement

structure KeepsTies (f : Statement → Statement) : Prop where
  id : ∀ s, (f s).id = s.id
  op : ∀ s, (f s).op = s.op
  mergeOperands : ∀ s, (f s).mergeOperands = s.mergeOperands
  label? : ∀ s, (f s).label? = s.label?

theorem keepsTies_bare : KeepsTies Statement.bare :=
  ⟨fun _ => rfl, fun _ => rfl, fun _ => rfl, fun _ => rfl⟩

theorem KeepsTies.renumbers {f : Statement → Statement} (hf : KeepsTies f) :
    Renumbers Set.univ (fun id => id) f where
  injOn := fun _ _ _ _ h => h
  id := hf.id
  op := hf.op
  mergeOperands := fun s => by rw [hf.mergeOperands, map_id']
  label? := hf.label?

namespace Body

/-! ## Cells -/

section KeepsTies

variable {f : Statement → Statement} (hf : KeepsTies f) (body : Body)

include hf

theorem labelPosition?_map (l : String) : labelPosition? (body.map f) l = body.labelPosition? l :=
  hf.renumbers.labelPosition?_map body l

theorem successorsOf_map (s : Statement) (i : Nat) :
    successorsOf (body.map f) (f s) i = body.successorsOf s i :=
  hf.renumbers.successorsOf_map body s i

theorem isTracked_of_keepsTies (s : Statement) : (f s).isTracked = s.isTracked :=
  hf.renumbers.isTracked s

theorem tracked_map : tracked (body.map f) = body.tracked.map (Prod.map f fun i => i) :=
  hf.renumbers.tracked_map body.within_univ

theorem cell?_map (id : StmtId) : cell? (body.map f) id = body.cell? id :=
  hf.renumbers.cell?_map body.within_univ trivial

theorem cellAt?_map (i : Nat) : cellAt? (body.map f) i = body.cellAt? i :=
  hf.renumbers.cellAt?_map body.within_univ i

theorem cells_map : cells (body.map f) = body.cells := hf.renumbers.cells_map body.within_univ

end KeepsTies

/-! ## Look-ups in bare bodies -/

variable {body : Body} {i c d : Nat} {s : Statement}

@[simp] theorem length_bare (body : Body) : body.bare.length = body.length := length_map _

theorem getElem?_bare (body : Body) (i : Nat) : body.bare[i]? = (body[i]?).map (·.bare) :=
  getElem?_map ..

theorem exists_of_getElem?_bare {t : Statement} (h : body.bare[i]? = some t) :
    ∃ s, body[i]? = some s ∧ t = s.bare := by
  rw [getElem?_bare, Option.map_eq_some_iff] at h
  obtain ⟨s, hs, rfl⟩ := h
  exact ⟨s, hs, rfl⟩

theorem getElem?_bare_of_getElem? (h : body[i]? = some s) : body.bare[i]? = some s.bare := by
  rw [getElem?_bare, h]
  rfl

theorem exists_of_mem_bare {t : Statement} (h : t ∈ body.bare) : ∃ s ∈ body, t = s.bare := by
  obtain ⟨s, hs, rfl⟩ := List.mem_map.1 h
  exact ⟨s, hs, rfl⟩

theorem forall_of_bare {P : Statement → Prop} (hP : ∀ s t : Statement, t.bare = s.bare → P s → P t)
    {body' : Body} (h : ∀ s ∈ body, P s) (heq : body'.bare = body.bare) : ∀ t ∈ body', P t := by
  intro t ht
  obtain ⟨s, hs, hts⟩ := exists_of_mem_bare (heq ▸ mem_map_of_mem ht : t.bare ∈ body.bare)
  exact hP s t hts (h s hs)

@[simp] theorem labelPosition?_bare (body : Body) (l : String) :
    body.bare.labelPosition? l = body.labelPosition? l := labelPosition?_map keepsTies_bare body l

@[simp] theorem successorsOf_bare (body : Body) (s : Statement) (i : Nat) :
    body.bare.successorsOf s.bare i = body.successorsOf s i :=
  successorsOf_map keepsTies_bare body s i

theorem tracked_bare (body : Body) :
    body.bare.tracked = body.tracked.map (Prod.map Statement.bare fun i => i) :=
  tracked_map keepsTies_bare body

@[simp] theorem cell?_bare (body : Body) (id : StmtId) : body.bare.cell? id = body.cell? id :=
  cell?_map keepsTies_bare body id

@[simp] theorem cellAt?_bare (body : Body) (i : Nat) : body.bare.cellAt? i = body.cellAt? i :=
  cellAt?_map keepsTies_bare body i

@[simp] theorem cells_bare (body : Body) : body.bare.cells = body.cells :=
  cells_map keepsTies_bare body

/-! ## Live ranges -/

theorem writes_bare : body.bare.Writes i c ↔ body.Writes i c := by
  constructor
  · rintro ⟨t, ht, hd, hc⟩
    obtain ⟨s, hs, rfl⟩ := exists_of_getElem?_bare ht
    exact ⟨s, hs, hd, by rwa [cellAt?_bare] at hc⟩
  · rintro ⟨s, hs, hd, hc⟩
    exact ⟨s.bare, getElem?_bare_of_getElem? hs, hd, by rwa [cellAt?_bare]⟩

theorem liveAt_bare : body.bare.LiveAt c i ↔ body.LiveAt c i := by
  constructor
  · intro h
    induction h with
    | read ht ho hc =>
      obtain ⟨s, hs, rfl⟩ := exists_of_getElem?_bare ht
      exact .read hs ho (by rwa [cell?_bare] at hc)
    | pass ht hw hj _ ih =>
      obtain ⟨s, hs, rfl⟩ := exists_of_getElem?_bare ht
      exact .pass hs (fun h => hw (writes_bare.2 h)) (by rwa [successorsOf_bare] at hj) ih
  · intro h
    induction h with
    | read hs ho hc => exact .read (getElem?_bare_of_getElem? hs) ho (by rwa [cell?_bare])
    | pass hs hw hj _ ih =>
      exact .pass (getElem?_bare_of_getElem? hs) (fun h => hw (writes_bare.1 h))
        (by rwa [successorsOf_bare]) ih

theorem liveAfter_bare : body.bare.LiveAfter c i ↔ body.LiveAfter c i := by
  constructor
  · rintro ⟨t, j, ht, hj, hl⟩
    obtain ⟨s, hs, rfl⟩ := exists_of_getElem?_bare ht
    exact ⟨s, j, hs, by rwa [successorsOf_bare] at hj, liveAt_bare.1 hl⟩
  · rintro ⟨s, j, hs, hj, hl⟩
    exact ⟨s.bare, j, getElem?_bare_of_getElem? hs, by rwa [successorsOf_bare], liveAt_bare.2 hl⟩

theorem occupies_bare : body.bare.Occupies c i ↔ body.Occupies c i :=
  or_congr liveAfter_bare writes_bare

theorem interferes_bare : body.bare.Interferes c d ↔ body.Interferes c d :=
  and_congr_right fun _ => exists_congr fun _ => and_congr occupies_bare occupies_bare

theorem readOutside_bare : body.bare.ReadOutside c ↔ body.ReadOutside c := by
  constructor
  · rintro ⟨t, ht, hop, o, ho, hc⟩
    obtain ⟨s, hs, rfl⟩ := exists_of_mem_bare ht
    exact ⟨s, hs, hop, o, ho, by rwa [cell?_bare] at hc⟩
  · rintro ⟨s, hs, hop, o, ho, hc⟩
    exact ⟨s.bare, mem_map_of_mem hs, hop, o, ho, by rwa [cell?_bare]⟩

end Body

end Ssa

/-! ## Discipline -/

theorem Pending.admits_bare {P : Pending} {s : Statement} : P.Admits s.bare ↔ P.Admits s :=
  ⟨fun h => ⟨h.reads, h.width, h.consumes, h.load, h.arg, h.parameter, h.store, h.label, h.merge,
      h.target⟩,
    fun h => ⟨h.reads, h.width, h.consumes, h.load, h.arg, h.parameter, h.store, h.label, h.merge,
      h.target⟩⟩

theorem Pending.flows_bare {P : Pending} {body : Body} : P.Flows body.bare ↔ P.Flows body := by
  induction body generalizing P with
  | nil => exact Iff.rfl
  | cons s body ih => exact and_congr admits_bare ih

theorem Ssa.Body.disciplined_bare {body : Body} {next : StmtId} :
    body.bare.Disciplined next ↔ body.Disciplined next := by
  have hids : body.bare.DistinctIds ↔ body.DistinctIds := by
    rw [DistinctIds, DistinctIds, bare, map_map]
    rfl
  constructor
  · intro h
    refine ⟨hids.1 h.distinct, fun s hs => h.bounded s.bare (mem_map_of_mem hs),
      Pending.flows_bare.1 h.flows, fun s hs hop o ho c hc hr => ?_,
      fun s hs => h.pins s.bare (mem_map_of_mem hs),
      fun s hs => h.copies s.bare (mem_map_of_mem hs)⟩
    exact h.stored s.bare (mem_map_of_mem hs) hop o ho c (by rwa [cell?_bare])
      (readOutside_bare.2 hr)
  · intro h
    refine ⟨hids.2 h.distinct, fun t ht => ?_, Pending.flows_bare.2 h.flows,
      fun t ht hop o ho c hc hr => ?_, fun t ht => ?_, fun t ht => ?_⟩ <;>
      obtain ⟨s, hs, rfl⟩ := exists_of_mem_bare ht
    · exact h.bounded s hs
    · exact h.stored s hs hop o ho c (by rwa [cell?_bare] at hc) (readOutside_bare.1 hr)
    · exact h.pins s hs
    · exact h.copies s hs

end MiniJava
