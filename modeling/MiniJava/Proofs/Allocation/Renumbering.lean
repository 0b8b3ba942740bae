import Mathlib.Data.List.Find
import Mathlib.Data.Set.Function
import MiniJava.Proofs.Allocation.Transit

/-!
# Renumbering

A statement names others by their numbers. The numbers themselves carry no meaning: the cells of a
body, its flow graph, its live sets and its spill candidates depend on positions only. So they stay as
they are when all numbers are renamed, as long as different numbers that the body mentions stay
different.
-/

namespace MiniJava

open Ssa List Body Variables

namespace Ssa

theorem Statement.uses_subset (s : Statement) : s.uses ⊆ s.operands := by
  rw [uses]
  split
  · exact nil_subset _
  · exact List.Subset.refl _

def Statement.Within (M : Set StmtId) (s : Statement) : Prop := s.id ∈ M ∧ ∀ o ∈ s.operands, o ∈ M

def Body.Within (M : Set StmtId) (body : Body) : Prop := ∀ s ∈ body, s.Within M

theorem Body.within_univ (body : Body) : body.Within Set.univ := fun _ _ => ⟨trivial, fun _ _ => trivial⟩

/-- A change of statements that renames their numbers, those in a set apart from each other, and keeps
what ties statements together. -/
structure Renumbers (M : Set StmtId) (g : StmtId → StmtId) (f : Statement → Statement) : Prop where
  injOn : Set.InjOn g M
  id : ∀ s, (f s).id = g s.id
  op : ∀ s, (f s).op = s.op
  mergeOperands : ∀ s, (f s).mergeOperands = s.mergeOperands.map g
  label? : ∀ s, (f s).label? = s.label?

theorem Body.zipIdx_map (f : Statement → Statement) (body : Body) :
    (body.map f).zipIdx = body.zipIdx.map (Prod.map f fun i => i) := List.zipIdx_map ..

namespace Renumbers

variable {M : Set StmtId} {g : StmtId → StmtId} {f : Statement → Statement} {body : Body}
  {id : StmtId}

section

variable (hf : Renumbers M g f)
include hf

theorem find?_map {α : Type} (hid : id ∈ M) {l : List (Statement × α)} (hl : ∀ e ∈ l, e.1.id ∈ M) :
    (l.map (Prod.map f fun a => a)).find? (·.1.id == g id) =
      (l.find? (·.1.id == id)).map (Prod.map f fun a => a) := by
  rw [List.find?_map]
  refine congrArg _ (find?_congr fun e he => ?_)
  rw [Function.comp_apply, Prod.map_fst, hf.id, Bool.beq_eq_decide_eq, Bool.beq_eq_decide_eq]
  exact decide_eq_decide.2 (hf.injOn.eq_iff (hl e he) hid)

/-! ## Control flow -/

theorem labelPosition?_map (body : Body) (l : String) :
    labelPosition? (body.map f) l = body.labelPosition? l := by
  rw [labelPosition?, labelPosition?, labels, labels, Body.zipIdx_map,
    filterMap_map]
  simp only [Function.comp_def, Prod.map_fst, Prod.map_snd, hf.op, hf.label?]

theorem successorsOf_map (body : Body) (s : Statement) (i : Nat) :
    successorsOf (body.map f) (f s) i = body.successorsOf s i := by
  rw [successorsOf, successorsOf, hf.op, hf.label?, length_map,
    show labelPosition? (body.map f) = body.labelPosition? from
      funext (hf.labelPosition?_map body)]

theorem isTracked (s : Statement) : (f s).isTracked = s.isTracked := by
  rw [Statement.isTracked, Statement.isTracked, hf.op]

/-! ## Cells -/

section

variable (hb : body.Within M)
include hb

theorem lastPosition?_map (hid : id ∈ M) :
    lastPosition? (body.map f) (g id) = body.lastPosition? id := by
  have hl : ∀ e ∈ body.zipIdx.reverse, e.1.id ∈ M := fun e he =>
    (hb _ (fst_mem_of_mem_zipIdx (List.mem_reverse.1 he))).1
  rw [lastPosition?, lastEntry?, Body.zipIdx_map, ← map_reverse, hf.find?_map hid hl,
    Option.map_map]
  rfl

theorem joined_map : joined (body.map f) = body.joined := by
  have hedges : mergeEdges (body.map f) = body.mergeEdges := by
    rw [mergeEdges, mergeEdges, Body.zipIdx_map, flatMap_map]
    refine flatMap_congr fun e he => ?_
    dsimp only [Prod.map]
    rw [hf.mergeOperands, filterMap_map]
    refine congrArg _ (filterMap_congr fun o ho => hf.lastPosition?_map hb ?_)
    exact (hb _ (fst_mem_of_mem_zipIdx he)).2 o (Statement.of_mem_mergeOperands ho).2
  rw [joined, hedges, length_map, joined]

theorem tracked_map : tracked (body.map f) = body.tracked.map (Prod.map f fun i => i) := by
  rw [tracked, tracked, hf.joined_map hb, Body.zipIdx_map, filter_map, map_map,
    map_map]
  simp only [Function.comp_def, Prod.map_fst, Prod.map_snd, Prod.map_apply, hf.isTracked]

theorem cell?_map (hid : id ∈ M) : cell? (body.map f) (g id) = body.cell? id := by
  have hl : ∀ e ∈ body.tracked.reverse, e.1.id ∈ M := fun e he =>
    (hb _ (mem_of_getElem? (mem_tracked.1 (List.mem_reverse.1 he)).1)).1
  rw [cell?, cell?, hf.tracked_map hb, ← map_reverse, hf.find?_map hid hl,
    Option.map_map]
  rfl

theorem cellAt?_map (i : Nat) : cellAt? (body.map f) i = body.cellAt? i := by
  rw [cellAt?, cellAt?, hf.joined_map hb, getElem?_map, Option.bind_map]
  simp only [Function.comp_def, hf.isTracked]

theorem cells_map : cells (body.map f) = body.cells := by
  rw [cells, cells, hf.tracked_map hb, map_map]
  rfl

end

end

end Renumbers

end Ssa

/-! ## Analyses -/

/-- Analyses of a body and of the same with other numbers: variables are found by the new numbers where
they were by the old ones. -/
structure Analysis.Matches (M : Set StmtId) (g : StmtId → StmtId) (a a' : Analysis) : Prop where
  all : a'.vars.all = a.vars.all
  at? : ∀ i, a'.vars.at? i = a.vars.at? i
  of? : ∀ id ∈ M, a'.vars.of? (g id) = a.vars.of? id
  live : a'.live = a.live
  graph : a'.graph = a.graph
  candidates : a'.candidates = a.candidates

theorem Analysis.Matches.coloring {M : Set StmtId} {g : StmtId → StmtId} {a a' : Analysis}
    (h : a.Matches M g a') (k : Nat) : a'.coloring k = a.coloring k := by
  rw [Analysis.coloring, Analysis.coloring, h.graph, pins, h.all, h.candidates,
    pins]

namespace Ssa.Renumbers

variable {M : Set StmtId} {g : StmtId → StmtId} {f : Statement → Statement} {body : Body}
  {a a' : Analysis}

theorem variableOf_map (hpin : ∀ s, (f s).pin? = s.pin?) (tracked : List (Statement × Nat × Nat))
    (root : Nat) : variableOf (tracked.map (Prod.map f fun e => e)) root =
      variableOf tracked root := by
  have hmembers : membersOf (tracked.map (Prod.map f fun e => e)) root =
      (membersOf tracked root).map (Prod.map f fun i => i) := by
    rw [membersOf, membersOf, filterMap_map, map_filterMap]
    refine filterMap_congr ?_
    rintro ⟨s, i, r⟩ _
    simp only [Function.comp_apply, Prod.map_apply]
    split <;> rfl
  rw [variableOf, variableOf, hmembers, map_map, findSome?_map]
  simp only [Function.comp_def, Prod.map_fst, Prod.map_snd, hpin]

theorem conflict?_map (hf : Renumbers M g f) (hpin : ∀ s, (f s).pin? = s.pin?)
    (tracked : List (Statement × Nat × Nat)) :
    conflict? (tracked.map (Prod.map f fun e => e)) =
      (conflict? tracked).map fun c => { c with stmt := g c.stmt } := by
  rw [conflict?, conflict?, findSome?_map, map_findSome?]
  refine congrArg (List.findSome? · tracked) (funext fun ⟨s, i, root⟩ => ?_)
  simp only [Function.comp_apply, Prod.map_apply, hpin, hf.id, variableOf_map hpin]
  cases s.pin? with
  | none => rfl
  | some second =>
    cases (variableOf tracked root).pin? with
    | none => rfl
    | some first =>
      by_cases h : first = second <;> simp [h]

theorem compute_map (hf : Renumbers M g f) (huses : ∀ s, (f s).uses = s.uses.map g)
    (hb : body.Within M) {vs vs' : Variables} (hall : vs'.all = vs.all)
    (hat : ∀ i, vs'.at? i = vs.at? i) (hof : ∀ id ∈ M, vs'.of? (g id) = vs.of? id) :
    Liveness.compute (body.map f) vs' = Liveness.compute body vs := by
  have hnodes : Liveness.nodesOf (body.map f) vs' = Liveness.nodesOf body vs := by
    refine ext_getElem? fun i => ?_
    rw [Liveness.getElem?_nodesOf, Liveness.getElem?_nodesOf, getElem?_map, Option.map_map]
    refine Option.map_congr fun s hs => ?_
    rw [Function.comp_apply, hf.op, hf.successorsOf_map, hat, huses, filterMap_map]
    have hreads : s.uses.filterMap (vs'.of? ∘ g) = s.uses.filterMap vs.of? :=
      filterMap_congr fun o ho => hof o ((hb s (mem_of_getElem? hs)).2 o
        (s.uses_subset ho))
    rw [hreads]
  rw [Liveness.compute, hnodes, size, hall]
  rfl

theorem matches_of_analyses (hf : Renumbers M g f) (huses : ∀ s, (f s).uses = s.uses.map g)
    (hpin : ∀ s, (f s).pin? = s.pin?) (hb : body.Within M) (h : Analyses body a)
    (h' : Analyses (body.map f) a') : a.Matches M g a' := by
  have hall : a'.vars.all = a.vars.all := by
    rw [h'.numbers.all, h.numbers.all, hf.cells_map hb, hf.tracked_map hb]
    exact map_congr_left fun c _ => variableOf_map hpin _ c
  have hat : ∀ i, a'.vars.at? i = a.vars.at? i := fun i => by
    rw [h'.numbers.byPosition, h.numbers.byPosition, hf.cellAt?_map hb, hf.cells_map hb]
  have hof : ∀ id ∈ M, a'.vars.of? (g id) = a.vars.of? id := fun id hid => by
    rw [h'.numbers.byId, h.numbers.byId, hf.cell?_map hb hid, hf.cells_map hb]
  have hlive : a'.live = a.live := by
    rw [h'.live, h.live, hf.compute_map huses hb hall hat hof]
  have hzip : ∀ {α : Type} (l : List α),
      (body.map f).zip l = (body.zip l).map (Prod.map f fun x => x) := fun l => zip_map_left ..
  refine ⟨hall, hat, hof, hlive, ?_, ?_⟩
  · rw [h'.graph, h.graph, hlive, size, size, hall]
  · rw [h'.candidates, h.candidates, hlive, Spill.candidates, Spill.candidates, Spill.readOutside,
      Spill.readOutside, Spill.writtenOutside, Spill.writtenOutside, hzip, hzip, filterMap_map,
      filterMap_map]
    simp only [Function.comp_def, Prod.map_fst, Prod.map_snd, hf.op]

/-- **The analysis of a body with other numbers.** -/
theorem analysis_map (hf : Renumbers M g f) (huses : ∀ s, (f s).uses = s.uses.map g)
    (hpin : ∀ s, (f s).pin? = s.pin?) (hb : body.Within M) :
    (∃ c, Analysis.of body = .error c ∧
      Analysis.of (body.map f) = .error { c with stmt := g c.stmt }) ∨
    ∃ a a', Analysis.of body = .ok a ∧ Analysis.of (body.map f) = .ok a' ∧ a.Matches M g a' := by
  have hconflict : conflict? (tracked (body.map f)) =
      (conflict? body.tracked).map fun c => { c with stmt := g c.stmt } := by
    rw [hf.tracked_map hb, hf.conflict?_map hpin]
  cases hc : conflict? body.tracked with
  | some c =>
    refine Or.inl ⟨c, ?_, ?_⟩
    · rw [Analysis.of, build, hc]
      rfl
    · rw [Analysis.of, build, hconflict, hc]
      rfl
  | none =>
    rw [hc] at hconflict
    obtain ⟨a, ha⟩ : ∃ a, Analysis.of body = .ok a := by
      rw [Analysis.of, build, hc]
      exact ⟨_, rfl⟩
    obtain ⟨a', ha'⟩ : ∃ a', Analysis.of (body.map f) = .ok a' := by
      rw [Analysis.of, build, hconflict]
      exact ⟨_, rfl⟩
    exact Or.inr ⟨a, a', ha, ha', hf.matches_of_analyses huses hpin hb (Analysis.of_analyses ha)
      (Analysis.of_analyses ha')⟩

end Ssa.Renumbers

end MiniJava
