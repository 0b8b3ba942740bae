import MiniJava.Proofs.Allocation.Rounds
import MiniJava.Proofs.Typing.Checked

/-!
# Registers of allocated programs

Allocation gives every cell of the last body one register: a free cell gets a color, and a cell pinned
by the calling convention its own register, or none if it lives on the stack. Cells that hold values
at the same time get different registers. The coloring looks at pairs of which at most one is pinned;
that two pinned cells never ask for the same register at the same time is due to the discipline.
-/

namespace MiniJava

open Ssa List Statement Option Body Variables

def Analysis.color? (a : Analysis) (k v : Nat) : Option Nat := ((a.coloring k).colors[v]?).join

namespace Ssa.Statement

variable {s : Statement} {n : Nat}

theorem fixedPin?_of_parameter (hop : s.op = .parameter) (hpos : s.position? = some n) (hn : n < 4) :
    s.fixedPin? = some (.register n) := by
  rw [fixedPin?, hop, hpos]
  exact if_pos hn

theorem fixedPin?_of_arg (hop : s.op = .arg) (hpos : s.position? = some n) :
    s.fixedPin? = some (if n < 4 then .register n else .noRegister) := by
  rw [fixedPin?, hop, hpos]
  change (if n < 4 then _ else _) = _
  split <;> rfl

end Ssa.Statement

/-! ## Colors of cells -/

namespace Analyses

variable {body : Body} {next : StmtId} {a : Analysis} {k u v c d r i : Nat} {s : Statement} {p : Pin}

theorem lt_size_graph (h : Analyses body a) (hc : body.cells[v]? = some c) :
    v < (a.problem k).graph.size :=
  Nat.lt_of_lt_of_eq (lt_of_getElem? hc) h.size_graph.symm

theorem exists_color (h : Analyses body a) (hall : (a.coloring k).uncolored = [])
    (hc : body.cells[v]? = some c) (hp : (a.problem k).pin? v = none) :
    ∃ r < k, a.color? k v = some r := by
  cases hcolor : a.color? k v with
  | none =>
    have hmem : v ∈ (a.coloring k).uncolored :=
      ColoringProblem.mem_uncolored.2 ⟨h.lt_size_graph hc, hp, hcolor⟩
    rw [hall] at hmem
    cases hmem
  | some r =>
    refine ⟨r, ?_, rfl⟩
    rw [Analysis.color?, a.coloring_eq, ColoringProblem.getD_colors_solve] at hcolor
    exact (ColoringProblem.solve_partial (h.lawful k)).bound v r hp hcolor

theorem color?_of_pin (h : Analyses body a) (hc : body.cells[v]? = some c)
    (hp : (a.problem k).pin? v = some p) : a.color? k v = p.register? := by
  have hpinned := (ColoringProblem.solve_partial (h.lawful k)).pinned v (h.lt_size_graph hc)
    (by rw [hp]; simp)
  rw [Analysis.color?, a.coloring_eq, ColoringProblem.getD_colors_solve, hpinned,
    ColoringProblem.pinnedRegister?, hp]
  rfl

theorem pin?_of_fixedPin? (h : Analyses body a) (hb : body.Disciplined next)
    (hc : body.cells[v]? = some c) (hs : s ∈ body) (hcell : body.cell? s.id = some c)
    (hp : s.fixedPin? = some p) : (a.problem k).pin? v = some p := by
  obtain ⟨i, hi⟩ := mem_iff_getElem?.1 hs
  rw [hb.distinct.cell?_eq_cellAt? hi] at hcell
  obtain ⟨t, ht, htr, rfl⟩ := cellAt?_eq_some.1 hcell
  obtain rfl := mem_unique hi ht
  rw [h.pin?_problem hc]
  exact h.numbers.agree i s p hi htr ((hb.pins s hs).trans hp)

/-- **Cells that hold values at the same time have different colors.** -/
theorem color?_ne (h : Analyses body a) (hb : body.Disciplined next) (hc : body.cells[u]? = some c)
    (hd : body.cells[v]? = some d) (hi : body.Interferes c d) (hu : a.color? k u = some r) :
    a.color? k v ≠ some r := by
  intro hv
  by_cases hfree : (a.problem k).pin? u = none ∨ (a.problem k).pin? v = none
  · rw [Analysis.color?, a.coloring_eq, ColoringProblem.getD_colors_solve] at hu hv
    exact (ColoringProblem.solve_partial (h.lawful k)).proper u v r
      ((h.mem_neighbours hd).2 ⟨c, hc, hi.symm⟩) hfree hu hv
  · -- Both are pinned, and no two pins to one register are on their way at the same time.
    rw [not_or] at hfree
    obtain ⟨p, hp⟩ := ne_none_iff_exists'.1 hfree.1
    obtain ⟨q, hq⟩ := ne_none_iff_exists'.1 hfree.2
    rw [h.color?_of_pin hc hp] at hu
    rw [h.color?_of_pin hd hq] at hv
    obtain ⟨s, hs, hsc, hsp⟩ := h.exists_pinned_register hb hc
      (show (a.problem k).pinnedRegister? u = some r by
        rw [ColoringProblem.pinnedRegister?, hp]; exact hu)
    obtain ⟨t, ht, htd, htp⟩ := h.exists_pinned_register hb hd
      (show (a.problem k).pinnedRegister? v = some r by
        rw [ColoringProblem.pinnedRegister?, hq]; exact hv)
    exact hb.not_interferes_pinned hs ht hsp htp hsc htd hi

end Analyses

/-! ## Safe registers -/

def Ssa.Body.registerAt? (body : Body) (i : Nat) : Option Nat := body[i]?.bind (·.register?)

theorem Ssa.Body.getElem?_assignRegisters (body : Body) (vs : Variables)
    (colors : List (Option Nat)) (i : Nat) :
    (body.assignRegisters vs colors)[i]? = (body[i]?).map fun s =>
      match vs.at? i with
      | some v => { s with register? := (colors[v]?).join }
      | none => s := by
  rw [assignRegisters, getElem?_map, getElem?_zipIdx, Option.map_map, Nat.zero_add]
  rfl

theorem Ssa.Body.exists_of_mem_assignRegisters {body : Body} {vs : Variables}
    {colors : List (Option Nat)} {t : Statement} (ht : t ∈ body.assignRegisters vs colors) :
    ∃ i s, body[i]? = some s ∧ t.bare = s.bare ∧
      t.register? = (body.assignRegisters vs colors).registerAt? i := by
  obtain ⟨i, hi⟩ := mem_iff_getElem?.1 ht
  obtain ⟨s, hs, hts⟩ := exists_of_getElem?_bare
    (body.bare_assignRegisters vs colors ▸ getElem?_bare_of_getElem? hi)
  exact ⟨i, s, hs, hts, by rw [registerAt?, hi]; rfl⟩

theorem Analyses.registerAt?_assignRegisters {body : Body} {a : Analysis} {k v c i : Nat}
    (h : Analyses body a) (hc : body.cells[v]? = some c) (hi : body.cellAt? i = some c) :
    (body.assignRegisters a.vars (a.coloring k).colors).registerAt? i = a.color? k v := by
  obtain ⟨s, hs, _, _⟩ := cellAt?_eq_some.1 hi
  rw [registerAt?, getElem?_assignRegisters, hs,
    h.numbers.at?_eq_some.2 ⟨c, hi, hc⟩]
  rfl

/-- What the registers of a body have to fulfil, given its variables and their interference. -/
structure RegisterSafe (k : Nat) (body : Body) (a : Analysis) : Prop where
  uniform : ∀ x ∈ a.vars.all, ∀ i ∈ x.members, ∀ j ∈ x.members,
    body.registerAt? i = body.registerAt? j
  colored : ∀ x ∈ a.vars.all, x.pin? = none → ∀ i ∈ x.members, ∃ r < k, body.registerAt? i = some r
  parameters : ∀ s ∈ body, s.op = .parameter → ∀ p < 4, s.position? = some p → s.register? = some p
  arguments : ∀ s ∈ body, s.op = .arg →
    ∃ p, s.position? = some p ∧ s.register? = if p < 4 then some p else none
  apart : ∀ u v x y, v ∈ a.graph.neighbours u → a.vars.all[u]? = some x → a.vars.all[v]? = some y →
    ∀ i ∈ x.members, ∀ j ∈ y.members, ∀ r, body.registerAt? i = some r → body.registerAt? j ≠ some r

theorem Variables.variableOf_bare (body : Body) (c : Nat) :
    variableOf body.bare.tracked c = variableOf body.tracked c := by
  rw [tracked_bare]
  exact Renumbers.variableOf_map (f := bare) (fun _ => rfl) _ c

namespace Analyses

variable {body final : Body} {next : StmtId} {a b : Analysis} {k : Nat}

theorem exists_cell_of_bare (h : Analyses final b) (hbare : final.bare = body.bare) {v : Nat}
    {x : Variable} (hx : b.vars.all[v]? = some x) :
    ∃ c, body.cells[v]? = some c ∧ x.pin? = (variableOf body.tracked c).pin? ∧
      ∀ i, i ∈ x.members ↔ body.cellAt? i = some c := by
  rw [h.numbers.getElem?_all, map_eq_some_iff] at hx
  obtain ⟨c, hc, rfl⟩ := hx
  rw [← final.cells_bare, hbare, body.cells_bare] at hc
  refine ⟨c, hc, ?_, fun i => ?_⟩
  · rw [← variableOf_bare final, hbare, variableOf_bare]
  · rw [mem_members_variableOf, ← final.cellAt?_bare, hbare, body.cellAt?_bare]

theorem registerAt?_of_pin? (h : Analyses body a) {i : Nat} {s : Statement} {p : Pin}
    (hs : body[i]? = some s) (ht : s.isTracked = true) (hp : s.pin? = some p) :
    (body.assignRegisters a.vars (a.coloring k).colors).registerAt? i = p.register? := by
  have hcell := cellAt?_eq hs ht
  obtain ⟨v, hv⟩ := Numbers.exists_number (mem_cells.2 ⟨i, hcell⟩)
  rw [h.registerAt?_assignRegisters hv hcell]
  refine h.color?_of_pin hv ?_
  rw [h.pin?_problem hv]
  exact h.numbers.agree i s p hs ht hp

theorem registerAt?_of_fixedPin? (h : Analyses body a) (hb : body.Disciplined next) {i : Nat}
    {s : Statement} {p : Pin} (hs : body[i]? = some s) (hp : s.fixedPin? = some p) :
    (body.assignRegisters a.vars (a.coloring k).colors).registerAt? i = p.register? :=
  h.registerAt?_of_pin? hs
    (Body.Disciplined.isTracked_of_isTransit (isTransit_of_fixedPin?_eq_some hp))
    ((hb.pins s (mem_of_getElem? hs)).trans hp)

/-- **A complete coloring is safe.** -/
theorem registerSafe (h : Analyses body a) (hb : body.Disciplined next)
    (hall : (a.coloring k).uncolored = [])
    (hbody : Analyses (body.assignRegisters a.vars (a.coloring k).colors) b) :
    RegisterSafe k (body.assignRegisters a.vars (a.coloring k).colors) b := by
  have hbare := body.bare_assignRegisters a.vars (a.coloring k).colors
  refine ⟨fun x hx i hi j hj => ?_, fun x hx hpin i hi => ?_, fun t ht hop p hp hpos => ?_,
    fun t ht hop => ?_, fun u v x y hv hx hy i hi j hj r hir => ?_⟩
  · obtain ⟨v, hv⟩ := mem_iff_getElem?.1 hx
    obtain ⟨c, hc, _, hmem⟩ := hbody.exists_cell_of_bare hbare hv
    rw [h.registerAt?_assignRegisters hc ((hmem i).1 hi),
      h.registerAt?_assignRegisters hc ((hmem j).1 hj)]
  · obtain ⟨v, hv⟩ := mem_iff_getElem?.1 hx
    obtain ⟨c, hc, hpin', hmem⟩ := hbody.exists_cell_of_bare hbare hv
    rw [h.registerAt?_assignRegisters hc ((hmem i).1 hi)]
    exact h.exists_color hall hc (by rw [h.pin?_problem hc, ← hpin', hpin])
  · obtain ⟨i, s, hs, hbares, hreg⟩ := exists_of_mem_assignRegisters ht
    have hsop : s.op = .parameter := (congrArg Statement.op hbares).symm.trans hop
    have hspos : s.position? = some p := (congrArg Statement.position? hbares).symm.trans hpos
    rw [hreg, h.registerAt?_of_fixedPin? hb hs (Statement.fixedPin?_of_parameter hsop hspos hp)]
    rfl
  · obtain ⟨i, s, hs, hbares, hreg⟩ := exists_of_mem_assignRegisters ht
    have hsop : s.op = .arg := (congrArg Statement.op hbares).symm.trans hop
    have hspos := (hb.admits hs).arg hsop
    refine ⟨_, (congrArg Statement.position? hbares).trans hspos, ?_⟩
    rw [hreg, h.registerAt?_of_fixedPin? hb hs (Statement.fixedPin?_of_arg hsop hspos)]
    split <;> rfl
  · obtain ⟨c, hc, _, hmemc⟩ := hbody.exists_cell_of_bare hbare hx
    obtain ⟨d, hd, _, hmemd⟩ := hbody.exists_cell_of_bare hbare hy
    obtain ⟨c', hc'⟩ := hbody.exists_cell_of_mem_neighbours hv
    obtain ⟨d', hd', hinter⟩ := (hbody.mem_neighbours hc').1 hv
    rw [← cells_bare, hbare, body.cells_bare] at hc' hd'
    obtain rfl := mem_unique hc hc'
    obtain rfl := mem_unique hd hd'
    rw [h.registerAt?_assignRegisters hc ((hmemc i).1 hi)] at hir
    rw [h.registerAt?_assignRegisters hd ((hmemd j).1 hj)]
    rw [← interferes_bare, hbare, interferes_bare] at hinter
    exact h.color?_ne hb hc hd hinter hir

end Analyses

/-- **Allocated bodies are safe.** -/
theorem Allocates.registerSafe {k : Nat} {body final : Body} {next last : StmtId}
    (h : Allocates k body next final last) :
    ∃ a, Analysis.of final = .ok a ∧ RegisterSafe k final a := by
  obtain ⟨b, hof⟩ := h.disciplined.exists_analysis
  refine ⟨b, hof, ?_⟩
  induction h with
  | colored hb ha hall =>
    exact ha.registerSafe (hb.of_bare (bare_clearRegisters _)) hall (Analysis.of_analyses hof)
  | spilled _ _ _ ih => exact ih hof

/-! ## Programs -/

namespace Ssa

variable {p q : Program} {k : Nat}

/-- A method and what allocation made of it, with the numbers that were free before. -/
def Method.Allocated (k : Nat) (bound : StmtId) (m m' : Method) : Prop :=
  m' = { m with body := m'.body } ∧
    ∃ n last, bound ≤ n ∧ Allocates k m.body.prepare n m'.body last

/-- **What a successful allocation of a program did.** -/
theorem Program.matches_of_allocate
    (hp : ∀ m ∈ p.methods, m.body.prepare.Disciplined p.nextId) {stats : List MethodStats}
    (h : p.allocate k = (q, .ok stats)) :
    Program.Matches (Method.Allocated k p.nextId) p q ∧ q.types = p.types := by
  rw [allocate] at h
  split at h
  · next q' nextId stats' hsweep =>
    obtain ⟨rfl, _⟩ := Prod.mk.inj h
    have hstep : ∀ (s : StmtId × List MethodStats) (m m' : Method) s', m ∈ p.methods →
        p.nextId ≤ s.1 → allocateNext k s m = (m', .ok s') →
          p.nextId ≤ s'.1 ∧ m.Allocated k p.nextId m' := by
      intro s m m' s' hm hle hnext
      obtain ⟨rfl, hok⟩ := Prod.mk.inj hnext
      cases hr : (allocateMethod m k s.1).result with
      | error e =>
        rw [hr] at hok
        cases hok
      | ok stats =>
        have hall := allocates_of_allocateBody ((hp m hm).mono hle) hr
        rw [hr] at hok
        cases hok
        exact ⟨Nat.le_trans hle hall.le, rfl, s.1, _, hle, hall⟩
    obtain ⟨_, hmatches, htypes, _⟩ :=
      matches_of_sweep_ok (I := fun s => p.nextId ≤ s.1) hsweep (Nat.le_refl _) hstep
    exact ⟨⟨hmatches.main, hmatches.classes⟩, htypes⟩
  · cases (Prod.mk.inj h).2

theorem Program.exists_allocate_ok
    (hp : ∀ m ∈ p.methods, m.body.prepare.Disciplined p.nextId) (hk : 5 ≤ k) :
    ∃ stats, (p.allocate k).2 = .ok stats := by
  have hstep : ∀ s : StmtId × List MethodStats, ∀ m ∈ p.methods, p.nextId ≤ s.1 →
      ∃ m' s', allocateNext k s m = (m', .ok s') ∧ p.nextId ≤ s'.1 := by
    intro s m hm hle
    obtain ⟨stats, hr⟩ : ∃ stats, (allocateMethod m k s.1).result = .ok stats :=
      exists_allocateBody_ok hk ((hp m hm).mono hle)
    have hall := allocates_of_allocateBody ((hp m hm).mono hle) hr
    refine ⟨{ m with body := (allocateMethod m k s.1).body },
      ((allocateMethod m k s.1).nextId, s.2 ++ [stats]), ?_, Nat.le_trans hle hall.le⟩
    rw [allocateNext, hr]
    rfl
  obtain ⟨q, ⟨nextId, stats⟩, hsweep, _⟩ :=
    exists_sweep_ok (I := fun s => p.nextId ≤ s.1) (s := (p.nextId, [])) (Nat.le_refl _) hstep
  exact ⟨stats, by rw [allocate, hsweep]⟩

/-- **Registers of an allocated program are safe,** whether it was checked or not. -/
theorem registers_are_safe (ast : Ast.Program) (p p' q : Program) (k : Nat)
    (stats : List MethodStats) (hp : Program.ofAst ast = .ok p) (hp' : p' = p ∨ p' = p.check.1)
    (hq : p'.allocate k = (q, .ok stats)) :
    ∀ m ∈ q.methods, ∃ a, Analysis.of m.body = .ok a ∧ RegisterSafe k m.body a := by
  intro m' hm'
  obtain ⟨hmatches, _⟩ := Program.matches_of_allocate
    ((lowered_of_ofAst hp).disciplined_of_check hp') hq
  obtain ⟨m, _, _, _, _, _, hall⟩ := exists_left_of_forall₂ hmatches.methods hm'
  exact hall.registerSafe

/-- A method that adds up six parameters, five of which are live at the same time. -/
def sixSum : Ast.MethodDecl where
  returnType := .int
  name := "sixSum"
  params := ["a", "b", "c", "d", "e", "f"].map fun x => ⟨.int, x⟩
  locals := []
  body := [.while 0 (.binary .lt (.var "a") (.var "b")) (.expr (.assign (.var "a")
    (.binary .add (.var "a") (.call .this "sixSum"
      (["b", "c", "d", "e", "f", "a"].map Ast.Expr.var)))))]
  result := .binary .add (.var "a") (.binary .add (.var "b") (.binary .add (.var "c")
    (.binary .add (.var "d") (.binary .add (.var "e") (.var "f")))))

def sixSums : Ast.Program where
  main := ⟨"Main", .print (.call (.newObject "Sums") "sixSum"
    ([1, 2, 3, 4, 5, 6].map Ast.Expr.intLit))⟩
  classes := [⟨"Sums", none, [], [sixSum]⟩]

theorem exists_ofAst_ok {ast : Ast.Program} (h : (Program.ofAst ast).isOk = true) :
    ∃ p, Program.ofAst ast = .ok p := exists_eq_ok_of_isOk h

theorem registers_are_safe_sixSums : ∃ p q stats, Program.ofAst sixSums = .ok p ∧
    p.allocate 5 = (q, .ok stats) ∧
      ∀ m ∈ q.methods, ∃ a, Analysis.of m.body = .ok a ∧ RegisterSafe 5 m.body a := by
  obtain ⟨p, hp⟩ := @exists_ofAst_ok sixSums (by cbv)
  obtain ⟨stats, hstats⟩ :=
    Program.exists_allocate_ok (lowered_of_ofAst hp).disciplined (Nat.le_refl 5)
  exact ⟨p, _, stats, hp, Prod.ext rfl hstats,
    registers_are_safe sixSums p p _ 5 stats hp (Or.inl rfl) (Prod.ext rfl hstats)⟩

/-- **Five registers suffice** for a lowered program, checked or not. -/
theorem five_registers_suffice (ast : Ast.Program) (p p' : Program) (k : Nat)
    (hp : Program.ofAst ast = .ok p) (hp' : p' = p ∨ p' = p.check.1) (hk : 5 ≤ k) :
    ∃ stats, (p'.allocate k).2 = .ok stats :=
  Program.exists_allocate_ok ((lowered_of_ofAst hp).disciplined_of_check hp') hk

theorem five_registers_suffice_sixSums :
    ∃ p stats, Program.ofAst sixSums = .ok p ∧ (p.allocate 5).2 = .ok stats := by
  obtain ⟨p, hp⟩ := @exists_ofAst_ok sixSums (by cbv)
  obtain ⟨stats, h⟩ := five_registers_suffice sixSums p p 5 hp (Or.inl rfl) (Nat.le_refl 5)
  exact ⟨p, stats, hp, h⟩

end Ssa

end MiniJava
