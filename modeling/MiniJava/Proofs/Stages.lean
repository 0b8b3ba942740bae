import MiniJava.Proofs.Parsing.Names

/-!
# The stages of compilation

A compilation succeeds if all its stages do. This file takes a compilation apart.
-/

namespace MiniJava

open Ssa

variable {source text : String} {ast : Ast.Program} {p q : Program}

theorem nodup_nodeIds (h : parse source = .ok ast) : ast.nodeIds.Nodup := by
  obtain ⟨_, _, h⟩ := parse_eq_ok_iff.1 h
  exact (Ast.counts_program h).choose_spec.nodup

theorem compileToCheckedSsa_eq_ok : compileToCheckedSsa source = .ok q ↔
    ∃ ast p, parse source = .ok ast ∧ Program.ofAst ast = .ok p ∧ p.check = (q, .ok ()) := by
  rw [compileToCheckedSsa, except_bind_eq_ok]
  constructor
  · rintro ⟨p, hp, h⟩
    obtain ⟨ast, hast, hp⟩ := except_bind_eq_ok.1 hp
    refine ⟨ast, p, hast, mapError_eq_ok.1 hp, ?_⟩
    split at h
    · next heq =>
      cases h
      exact heq
    · cases h
  · rintro ⟨ast, p, hast, hp, h⟩
    refine ⟨p, except_bind_eq_ok.2 ⟨ast, hast, mapError_eq_ok.2 hp⟩, ?_⟩
    rw [h]
    rfl

theorem assemble_eq_ok {asm : Assembly} : p.assemble.2 = .ok asm ↔
    ∃ q stats, p.allocate machineRegisters = (q, .ok stats) ∧ q.emit = .ok asm := by
  rw [Program.assemble]
  constructor
  · intro h
    split at h
    · next q stats hq => exact ⟨q, stats, hq, mapError_eq_ok.1 h⟩
    · cases h
  · rintro ⟨q, stats, hq, hasm⟩
    rw [hq]
    exact mapError_eq_ok.2 hasm

theorem compileToAssembly_eq_ok : compileToAssembly source = .ok text ↔
    ∃ p q stats asm, compileToCheckedSsa source = .ok p ∧
      p.allocate machineRegisters = (q, .ok stats) ∧ q.emit = .ok asm ∧ text = asm.text := by
  rw [compileToAssembly, except_bind_eq_ok]
  constructor
  · rintro ⟨p, hp, h⟩
    obtain ⟨asm, hasm, h⟩ := except_bind_eq_ok.1 h
    cases h
    obtain ⟨q, stats, hq, hasm⟩ := assemble_eq_ok.1 hasm
    exact ⟨p, q, stats, asm, hp, hq, hasm, rfl⟩
  · rintro ⟨p, q, stats, asm, hp, hq, hasm, rfl⟩
    exact ⟨p, hp, except_bind_eq_ok.2 ⟨asm, assemble_eq_ok.2 ⟨q, stats, hq, hasm⟩, rfl⟩⟩

end MiniJava
