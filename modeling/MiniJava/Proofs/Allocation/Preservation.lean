import MiniJava.Proofs.Allocation.SpilledMachine
import MiniJava.Proofs.Semantics.Programs

/-!
# Allocation preserves behaviour

An allocated method does the same on registers and slots as the method did on cells: each spill
round keeps what the body does, and so does the coloring at the end. What types, pins and registers
are written on statements before allocation makes no difference. Methods call each other, so the same
holds of whole programs.
-/

namespace MiniJava

open Ssa List Statement Body

variable {body : Body} {next : StmtId} {k : Nat}

/-! ## Annotations -/

theorem exec_cellMachine_map {f : Statement → Statement} (hf : KeepsTies f)
    (hpayload : ∀ s, (f s).payload = s.payload) (hreads : ∀ s, (f s).reads = s.reads)
    (hd : body.DistinctIds) (act : Activation) (budget : Nat) :
    (cellMachine (body.map f) act).exec budget = (cellMachine body act).exec budget := by
  have hcell : ∀ id, cell? (body.map f) id = body.cell? id := cell?_map hf body
  have hstep : (cellMachine body act).Lockstep (cellMachine (body.map f) act)
      (fun _ σ τ => τ = σ) := by
    constructor
    · rfl
    · exact length_map f
    · exact labelPosition?_map hf body
    · intro pc s hs
      exact ⟨f s, by rw [cellMachine, getElem?_map, show body[pc]? = some s from hs]; rfl,
        hf.id s, hf.op s, hpayload s⟩
    · rintro pc s t σ _ hs ht rfl
      have hts : t = f s := by
        have hmap : (body.map f)[pc]? = some t := ht
        rw [getElem?_map, show body[pc]? = some s from hs] at hmap
        exact (Option.some.inj hmap).symm
      rw [hts, hreads]
      refine mapM_option_congr fun o _ => ?_
      exact congrArg (Option.bind · _) (hcell o)
    · rintro pc σ _ rfl
      rfl
    · rintro pc s σ _ v hs hdef rfl
      have htr : s.isTracked = true := by rw [isTracked, hdef, Bool.true_or]
      have hc := hd.cell?_eq hs htr
      exact ⟨_, _, hc, (hcell s.id).trans hc, rfl⟩
    · rintro pc s σ _ slot v hs hop rfl
      rfl
    · exact fun _ _ _ _ _ _ _ h => h
    · exact fun _ _ _ _ _ _ _ _ _ _ h => h
  exact (hstep.run_eq rfl).symm

theorem exec_cellMachine_bare (hd : body.DistinctIds) (act : Activation) (budget : Nat) :
    (cellMachine body.bare act).exec budget = (cellMachine body act).exec budget :=
  exec_cellMachine_map keepsTies_bare (fun _ => rfl) (fun _ => rfl) hd act budget

theorem keepsTies_prepared : KeepsTies prepared where
  id := id_prepared
  op := op_prepared
  mergeOperands := by
    intro s
    obtain ⟨_, _, h⟩ := s.prepared_eq
    rw [h, mergeOperands, mergeOperands]
    cases hop : s.op <;> rfl
  label? := by
    intro s
    obtain ⟨_, _, h⟩ := s.prepared_eq
    rw [h]
    rfl

theorem Ssa.Statement.reads_prepared (s : Statement) : s.prepared.reads = s.reads := by
  obtain ⟨_, _, h⟩ := s.prepared_eq
  rw [h, reads, reads]
  split <;> rfl

theorem exec_cellMachine_prepare (hd : body.DistinctIds) (act : Activation) (budget : Nat) :
    (cellMachine body.prepare act).exec budget = (cellMachine body act).exec budget := by
  refine exec_cellMachine_map keepsTies_prepared (fun s => ?_) reads_prepared hd act budget
  obtain ⟨_, _, h⟩ := s.prepared_eq
  rw [h]

theorem Ssa.Body.Disciplined.distinct_of_prepare (h : body.prepare.Disciplined next) :
    body.DistinctIds := by
  have hd := h.distinct
  rw [Body.DistinctIds, prepare_eq, map_map] at hd
  rw [Body.DistinctIds]
  rwa [show (fun s : Statement => s.id) ∘ prepared = (fun s => s.id) from
    funext id_prepared] at hd

/-! ## Bodies -/

theorem Ssa.Body.shaped_clearRegisters : body.clearRegisters.Shaped ↔ body.Shaped := by
  rw [← shaped_bare, body.bare_clearRegisters, shaped_bare]

/-- **An allocated body does on registers what the body does on cells.** -/
theorem Allocates.exec_registers {final : Body} {last : StmtId}
    (h : Allocates k body next final last) (hshape : body.Shaped) (act : Activation)
    (budget : Nat) :
    (registerMachine final act).exec budget = (cellMachine body act).exec budget := by
  induction h with
  | @colored body next a hb ha hall =>
    have hclear := hb.of_bare body.bare_clearRegisters
    rw [ha.exec_registers hclear hall act budget, ← exec_cellMachine_bare hclear.distinct,
      body.bare_clearRegisters, exec_cellMachine_bare hb.distinct]
  | @spilled body code final next n' last a slots hs hfresh _ ih =>
    have hshape' := shaped_clearRegisters.2 hshape
    have hb := hs.disciplined.of_bare body.bare_clearRegisters.symm
    rw [ih (hs.shaped hshape'), hs.exec_code hfresh hshape' act budget,
      ← exec_cellMachine_bare hs.disciplined.distinct, body.bare_clearRegisters,
      exec_cellMachine_bare hb.distinct]

/-! ## Programs -/

namespace Ssa

theorem Lowered.shaped_of_check {ast : Ast.Program} {p p' : Program} (h : Lowered ast p)
    (hp' : p' = p ∨ p' = p.check.1) : ∀ m ∈ p'.methods, m.body.prepare.Shaped := by
  rcases hp' with rfl | rfl
  · exact fun m hm => shaped_prepare.2 (h.shaped m hm)
  · intro m' hm'
    obtain ⟨m, hm, hsame⟩ := Program.exists_of_mem_check hm'
    have hshape := shaped_bare.2 (shaped_prepare.2 (h.shaped m hm))
    rw [← show m'.body.prepare.bare = m.body.prepare.bare from hsame] at hshape
    exact shaped_bare.1 hshape

theorem Method.Allocated.onRegisters_eq {bound : StmtId} {m m' : Method}
    (h : m.Allocated k bound m') (hd : m.body.DistinctIds) (hshape : m.body.prepare.Shaped)
    (budget : Nat) (act : Activation) : m'.onRegisters budget act = m.onCells budget act := by
  obtain ⟨_, n, last, _, hall⟩ := h
  rw [onRegisters, onCells, hall.exec_registers hshape act budget, exec_cellMachine_prepare hd]

/-- **Allocation preserves behaviour.** On registers each method of an allocated program does what
it did on cells, in all surroundings, and so does the program. -/
theorem allocation_preserves_behaviour (ast : Ast.Program) (p p' q : Program) (k : Nat)
    (stats : List MethodStats) (hp : Program.ofAst ast = .ok p) (hp' : p' = p ∨ p' = p.check.1)
    (hq : p'.allocate k = (q, .ok stats)) :
    List.Forall₂ (fun m m' => m' = { m with body := m'.body } ∧
      ∀ budget act, m'.onRegisters budget act = m.onCells budget act) p'.methods q.methods ∧
    ∀ budget depth, q.run (Method.onRegisters budget) depth =
      p'.run (Method.onCells budget) depth := by
  have hlow := lowered_of_ofAst hp
  have hdis := hlow.disciplined_of_check hp'
  have hshape := hlow.shaped_of_check hp'
  obtain ⟨hmatches, _⟩ := Program.matches_of_allocate hdis hq
  have hexec := hmatches.imp_mem (S := fun m m' => m' = { m with body := m'.body } ∧
      ∀ budget act, m'.onRegisters budget act = m.onCells budget act) fun m hm m' hall =>
    ⟨hall.1, hall.onRegisters_eq (hdis m hm).distinct_of_prepare (hshape m hm)⟩
  refine ⟨hexec.methods, fun budget depth => (hexec.run_eq_run ?_ ?_ depth).symm⟩
  · rintro m m' ⟨heq, _⟩
    rw [heq]
  · exact fun m m' hr => funext fun act => (hr.2 budget act).symm

theorem allocation_preserves_behaviour_sixSums : ∃ p q stats, Program.ofAst sixSums = .ok p ∧
    p.allocate 5 = (q, .ok stats) ∧
    List.Forall₂ (fun m m' => m' = { m with body := m'.body } ∧
      ∀ budget act, m'.onRegisters budget act = m.onCells budget act) p.methods q.methods ∧
    ∀ budget depth, q.run (Method.onRegisters budget) depth =
      p.run (Method.onCells budget) depth := by
  obtain ⟨p, hp⟩ := @exists_ofAst_ok sixSums (by cbv)
  obtain ⟨stats, hstats⟩ :=
    Program.exists_allocate_ok (lowered_of_ofAst hp).disciplined (Nat.le_refl 5)
  exact ⟨p, _, stats, hp, Prod.ext rfl hstats,
    allocation_preserves_behaviour sixSums p p _ 5 stats hp (Or.inl rfl) (Prod.ext rfl hstats)⟩

end Ssa

end MiniJava
