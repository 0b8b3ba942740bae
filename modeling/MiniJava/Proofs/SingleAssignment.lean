import MiniJava.Proofs.Allocation.RegisterSafety
import MiniJava.Proofs.Allocation.Termination
import MiniJava.Proofs.Lowering.References

/-!
# Single assignment

Every number names one statement of a program, and every operand names a statement that stands before
it in the same method. Lowering makes programs so. A check leaves numbers and references alone, and
allocation inserts statements with numbers that no method has.
-/

namespace MiniJava

open Ssa List Statement

/-! ## Bodies -/

namespace Ssa.Body

variable {body code final : Body} {next n' last : StmtId}

/-- A body after statements with fresh numbers, from `next` on, were inserted. -/
structure Extends (body : Body) (next : StmtId) (final : Body) (last : StmtId) : Prop where
  le : next ≤ last
  ids : (final.map (·.id)).Perm (body.map (·.id) ++ range' next (last - next))
  ordered : body.Ordered → final.Ordered

namespace Extends

theorem of_bare (next : StmtId) (h : final.bare = body.bare) : Extends body next final next := by
  refine ⟨Nat.le_refl _, ?_, fun ho => ho.of_bare h⟩
  rw [Nat.sub_self, range'_zero, append_nil,
    ← Body.map_id_map id_bare final, ← Body.map_id_map id_bare body]
  exact List.Perm.of_eq (congrArg (map fun s : Statement => s.id) h)

theorem trans (h : Extends body next code n') (h' : Extends code n' final last) :
    Extends body next final last := by
  refine ⟨Nat.le_trans h.le h'.le, ?_, fun ho => h'.ordered (h.ordered ho)⟩
  have hlen : last - next = (n' - next) + (last - n') := by
    rw [Nat.add_comm, Nat.sub_add_sub_cancel h'.le h.le]
  rw [hlen, ← range'_append_1, Nat.add_sub_cancel' h.le, ← append_assoc]
  exact h'.ids.trans (h.ids.append_right _)

theorem of_groups {vs : Variables} {live : Liveness} {slots : Spill.Slots}
    (h : Spill.Groups body vs live slots 0 next body code n') : Extends body next code n' :=
  ⟨h.le, h.perm_ids, h.ordered⟩

end Extends

end Ssa.Body

section Bodies

variable {method : String} {k : Nat} {body : Body} {next : StmtId}

theorem bare_of_colored {final : Body}
    (h : allocationRound method k body next = .colored final) : final.bare = body.bare := by
  rw [allocationRound] at h
  split at h
  · cases h
  · dsimp only at h
    split at h
    · cases h
      exact Body.bare_assignRegisters ..
    · split at h <;> cases h

/-- **What any number of rounds leaves behind,** whether they succeed or not. -/
theorem allocationRounds_extends (method : String) (k n done : Nat) (hb : body.Numbered next) :
    body.Extends next (allocationRounds method k n done body next).body
      (allocationRounds method k n done body next).nextId := by
  induction n generalizing done body next with
  | zero => exact .of_bare next rfl
  | succ n ih =>
    have hclear := hb.of_bare body.bare_clearRegisters
    have hstart := Body.Extends.of_bare next body.bare_clearRegisters
    rw [allocationRounds]
    cases hround : allocationRound method k body.clearRegisters next with
    | colored final => exact hstart.trans (.of_bare next (bare_of_colored hround))
    | failed e => exact hstart
    | spilled code n' =>
      obtain ⟨a, slots, v, slot, hins, _, _, _⟩ := inserted_of_spilled hclear hround
      exact (hstart.trans (.of_groups hins.groups)).trans
        (ih (done + 1) (hins.groups.numbered hclear))

theorem allocateBody_extends (method : String) (k : Nat) (hb : body.Numbered next) :
    body.Extends next (allocateBody method k body next).body
      (allocateBody method k body next).nextId := by
  rw [allocateBody]
  split
  · exact .of_bare next rfl
  · have hprepare : body.Extends next body.prepare next := by
      refine ⟨Nat.le_refl _, ?_, fun h =>
        h.map id_prepared fun s => s.operands_prepared_sublist.subset⟩
      rw [Nat.sub_self, range'_zero, append_nil, Body.prepare_eq,
        Body.map_id_map id_prepared]
    exact hprepare.trans (allocationRounds_extends method k _ 0 hb.prepare)

end Bodies

/-! ## Programs -/

namespace Ssa

namespace Program

variable {p q : Program} {last : StmtId}

/-- Every number names one statement, and every operand names a statement that stands before it. -/
structure SingleAssignment (p : Program) : Prop where
  distinct : (methodIds p.methods).Nodup
  id_lt : ∀ id ∈ methodIds p.methods, id < p.nextId
  ordered : ∀ m ∈ p.methods, m.body.Ordered

/-- A pass over a program: a check, passed or not, or a successful allocation. -/
def Reworks (p q : Program) : Prop :=
  q = p.check.1 ∨ ∃ k stats, p.allocate k = (q, .ok stats)

theorem mem_methodIds {methods : List Method} {m : Method} (hm : m ∈ methods) {s : Statement}
    (hs : s ∈ m.body) : s.id ∈ methodIds methods :=
  mem_flatMap.2 ⟨m, hm, mem_map_of_mem hs⟩

theorem distinctIds_of_nodup {methods : List Method} (h : (methodIds methods).Nodup) {m : Method}
    (hm : m ∈ methods) : m.body.DistinctIds := (nodup_flatMap.1 h).1 m hm

/-- A list of methods after statements with fresh numbers, from `next` on, were inserted. -/
structure ExtendsMethods (ms : List Method) (next : StmtId) (ms' : List Method) (last : StmtId) :
    Prop where
  le : next ≤ last
  ids : (methodIds ms').Perm (methodIds ms ++ range' next (last - next))
  ordered : (∀ m ∈ ms, m.body.Ordered) → ∀ m ∈ ms', m.body.Ordered

theorem ExtendsMethods.cons {m m' : Method} {ms ms' : List Method} {next mid last : StmtId}
    (hm : m.body.Extends next m'.body mid) (hms : ExtendsMethods ms mid ms' last) :
    ExtendsMethods (m :: ms) next (m' :: ms') last := by
  refine ⟨Nat.le_trans hm.le hms.le, ?_, fun ho m₁ hm₁ => ?_⟩
  · have hlen : last - next = (mid - next) + (last - mid) := by
      rw [Nat.add_comm, Nat.sub_add_sub_cancel hms.le hm.le]
    have hrange : range' next (last - next) =
        range' next (mid - next) ++ range' mid (last - mid) := by
      rw [hlen, ← range'_append_1, Nat.add_sub_cancel' hm.le]
    rw [methodIds, methodIds, flatMap_cons, flatMap_cons, hrange, perm_iff_count]
    intro id
    have hfirst := hm.ids.count_eq id
    have hothers := hms.ids.count_eq id
    rw [methodIds, methodIds] at hothers
    simp only [count_append] at hfirst hothers ⊢
    omega
  · rcases mem_cons.1 hm₁ with rfl | hm₁
    · exact hm.ordered (ho m mem_cons_self)
    · exact hms.ordered (fun m hm => ho m (mem_cons_of_mem _ hm)) m₁ hm₁

theorem ExtendsMethods.refl (ms : List Method) (next : StmtId) : ExtendsMethods ms next ms next :=
  ⟨Nat.le_refl _, by simp, id⟩

theorem extends_sweep {k : Nat} {ms : List Method} (s : StmtId × List MethodStats)
    (hms : ∀ m ∈ ms, m.body.Numbered s.1) :
    ∃ last, ExtendsMethods ms s.1 (Ssa.sweep (allocateNext k) s ms).1 last ∧
      ∀ s', (Ssa.sweep (allocateNext k) s ms).2 = .ok s' → s'.1 = last := by
  induction ms generalizing s with
  | nil => exact ⟨s.1, .refl [] s.1, fun s' h => by cases h; rfl⟩
  | cons m ms ih =>
    have hext : m.body.Extends s.1 (allocateMethod m k s.1).body (allocateMethod m k s.1).nextId :=
      allocateBody_extends m.qualifiedName k (hms m mem_cons_self)
    rw [Ssa.sweep, allocateNext]
    cases (allocateMethod m k s.1).result with
    | error e => exact ⟨_, .cons hext (.refl ms _), fun s' h => by cases h⟩
    | ok stats =>
      obtain ⟨last, hrest, hlast⟩ := ih ((allocateMethod m k s.1).nextId, s.2 ++ [stats])
        fun m hm => (hms m (mem_cons_of_mem _ hm)).mono hext.le
      exact ⟨last, .cons hext hrest, hlast⟩

/-- **What an allocation leaves behind,** whether it succeeds or not. The next free number is stored if
it succeeds. -/
theorem SingleAssignment.extends (hp : p.SingleAssignment) (k : Nat) :
    ∃ last, ExtendsMethods p.methods p.nextId (p.allocate k).1.methods last ∧
      (p.allocate k).1.nextId = if (p.allocate k).2.isOk then last else p.nextId := by
  have hnumbered : ∀ m ∈ p.methods, m.body.Numbered p.nextId := fun m hm =>
    (hp.ordered m hm).numbered (distinctIds_of_nodup hp.distinct hm)
      fun s hs => hp.id_lt s.id (mem_methodIds hm hs)
  obtain ⟨last, hext, hlast⟩ := extends_sweep (k := k) (p.nextId, []) hnumbered
  have hnext := nextId_sweep (allocateNext k) (p.nextId, []) p
  rw [sweep_methods] at hext hlast
  refine ⟨last, ?_⟩
  rw [Program.allocate]
  rcases hsweep : p.sweep (allocateNext k) (p.nextId, []) with ⟨q, e | ⟨nextId, stats⟩⟩
  · rw [hsweep] at hext hnext
    exact ⟨hext, hnext⟩
  · rw [hsweep] at hext hlast hnext
    refine ⟨hext, ?_⟩
    obtain rfl : nextId = last := hlast _ rfl
    have hle : q.nextId ≤ nextId := (Nat.le_of_eq hnext).trans hext.le
    exact Nat.max_eq_right hle

theorem singleAssignment_of_ofAst {ast : Ast.Program} (h : Program.ofAst ast = .ok p) :
    p.SingleAssignment := by
  have hids := ids_of_ofAst h
  refine ⟨?_, fun id hid => ?_, (lowered_of_ofAst h).ordered⟩
  · rw [hids]
    exact nodup_range
  · rw [hids] at hid
    exact mem_range.1 hid

theorem ExtendsMethods.nodup (h : ExtendsMethods p.methods p.nextId q.methods last)
    (hp : p.SingleAssignment) : (methodIds q.methods).Nodup := by
  refine (h.ids.nodup_iff).2 (nodup_append'.2 ⟨hp.distinct, nodup_range', ?_⟩)
  intro id hid hfresh
  rw [mem_range'_1] at hfresh
  exact absurd (hp.id_lt id hid) (Nat.not_lt.2 hfresh.1)

theorem ExtendsMethods.mem_iff (h : ExtendsMethods p.methods p.nextId q.methods last) {id : StmtId} :
    id ∈ methodIds q.methods ↔ id ∈ methodIds p.methods ∨ p.nextId ≤ id ∧ id < last := by
  rw [h.ids.mem_iff, mem_append, mem_range'_1, Nat.add_sub_cancel' h.le]

theorem SingleAssignment.allocate (hp : p.SingleAssignment) {k : Nat} {stats : List MethodStats}
    (h : p.allocate k = (q, .ok stats)) : q.SingleAssignment := by
  obtain ⟨last, hext, hnext⟩ := hp.extends k
  rw [h] at hext hnext
  refine ⟨hext.nodup hp, fun id hid => ?_, hext.ordered hp.ordered⟩
  have hlast : q.nextId = last := hnext
  rw [hlast]
  rcases hext.mem_iff.1 hid with hid | hid
  · exact Nat.lt_of_lt_of_le (hp.id_lt id hid) hext.le
  · exact hid.2

/-- Methods with the same numbers, of which the second refers to nothing else than the first. -/
def SameNumbers (m m' : Method) : Prop :=
  m'.body.map (·.id) = m.body.map (·.id) ∧ (m.body.Ordered → m'.body.Ordered)

theorem sameNumbers_checkMethod (cx : TypeContext) (m : Method) :
    SameNumbers m (cx.checkMethod m).1 := by
  have hstep : ∀ mx typed s, (cx.checkStmt mx typed s).1.id = s.id ∧
      (cx.checkStmt mx typed s).1.operands ⊆ s.operands := by
    intro mx typed s
    rw [TypeContext.checkStmt]
    split
    · refine ⟨rfl, ?_⟩
      rw [TypeContext.annotate, operands, operands]
      dsimp only
      split
      · simp
      · exact List.Subset.refl _
    · exact ⟨rfl, List.Subset.refl _⟩
  have hall := forall₂_sweep (f := cx.checkStmt
      { this? := m.owner?.bind cx.types.lookup?, params := m.paramTypes
        returnType? := m.returnType? })
    (R := fun s t : Statement => t.id = s.id ∧ t.operands ⊆ s.operands)
    (fun _ => ⟨rfl, List.Subset.refl _⟩) (hstep _) [] m.body
  exact ⟨map_eq_of_forall₂ hall fun _ _ h => h.1, fun h => h.of_forall₂ hall⟩

theorem SingleAssignment.check (hp : p.SingleAssignment) : p.check.1.SingleAssignment := by
  have hall := p.forall₂_check (R := SameNumbers) (fun _ => ⟨rfl, id⟩)
    (fun _ _ _ h h' => ⟨h'.1.trans h.1, fun ho => h'.2 (h.2 ho)⟩) (fun _ _ _ => ⟨rfl, id⟩)
    sameNumbers_checkMethod
  have hids : methodIds p.check.1.methods = methodIds p.methods := by
    rw [methodIds, methodIds, flatMap_def, flatMap_def,
      map_eq_of_forall₂ hall fun _ _ h => h.1]
  refine ⟨hids ▸ hp.distinct, ?_, fun m' hm' => ?_⟩
  · rw [hids, p.nextId_check]
    exact hp.id_lt
  · obtain ⟨m, hm, hsame⟩ := exists_left_of_forall₂ hall hm'
    exact hsame.2 (hp.ordered m hm)

/-- **Passes keep single assignment.** -/
theorem SingleAssignment.reworks (hp : p.SingleAssignment)
    (h : Relation.ReflTransGen Reworks p q) : q.SingleAssignment := by
  induction h with
  | refl => exact hp
  | tail _ hstep ih =>
    rcases hstep with rfl | ⟨k, stats, hq⟩
    · exact ih.check
    · exact ih.allocate hq

end Program

/-- **Single assignment holds from lowering on.** The statements of a lowered program are numbered one
after the other and in order, and after any sequence of checks and successful allocations every number
still names one statement and every operand an earlier one of its method. -/
theorem single_assignment {ast : Ast.Program} {p : Program} (h : Program.ofAst ast = .ok p) :
    methodIds p.methods = List.range p.nextId ∧ (∀ m ∈ p.methods, m.body.Ordered) ∧
      ∀ q, Relation.ReflTransGen Program.Reworks p q → q.SingleAssignment := by
  have hp := Program.singleAssignment_of_ofAst h
  exact ⟨ids_of_ofAst h, hp.ordered, fun q hq => hp.reworks hq⟩

theorem single_assignment_sixSums : ∃ p q stats, Program.ofAst sixSums = .ok p ∧
    p.check.1.allocate 5 = (q, .ok stats) ∧ methodIds p.methods = List.range p.nextId ∧
      q.SingleAssignment := by
  obtain ⟨p, hp⟩ := @exists_ofAst_ok sixSums (by cbv)
  obtain ⟨stats, hstats⟩ :=
    Program.exists_allocate_ok (lowered_of_ofAst hp).disciplined_check (Nat.le_refl 5)
  have hq : p.check.1.allocate 5 = ((p.check.1.allocate 5).1, .ok stats) := Prod.ext rfl hstats
  obtain ⟨hids, _, hall⟩ := single_assignment hp
  have hruns : Relation.ReflTransGen Program.Reworks p (p.check.1.allocate 5).1 :=
    .tail (.single (.inl rfl)) (.inr ⟨5, stats, hq⟩)
  exact ⟨p, _, stats, hp, hq, hids, hall _ hruns⟩

end Ssa

end MiniJava
