import MiniJava.Proofs.Allocation.Numbering
import MiniJava.Proofs.Lowering.Programs

/-!
# References of lowered code

Whatever lowering emits refers to statements that were emitted before in the same method. The numbers
of a program go on from method to method without a gap.
-/

namespace MiniJava.Ssa

open Ast Build List

variable {labels : List String} {types : TypeName → Prop} {body : Body} {sc sc₁ sc' : Scope}
  {ast : Ast.Program} {p : Program}

/-! ## Order -/

theorem Written.refers {args params : List StmtId} (h : Written labels types args params body) :
    body.Ordered ∧ args ⊆ body.map (·.id) ∧ params ⊆ body.map (·.id) := by
  have hconcat : ∀ {ids : List StmtId} {body : Body} (s : Statement), ids ⊆ body.map (·.id) →
      ids ⊆ (body ++ [s]).map (·.id) := fun s h o ho => by
    rw [map_append]
    exact mem_append_left _ (h ho)
  induction h with
  | nil => exact ⟨Body.ordered_iff.2 trivial, nil_subset _, nil_subset _⟩
  | @alone body s _ _ _ _ hreads ih =>
    exact ⟨Body.ordered_concat.2 ⟨ih.1, fun o ho => body.values_subset_ids (hreads o ho)⟩,
      nil_subset _, nil_subset _⟩
  | @arg args body value id _ hv ih =>
    refine ⟨Body.ordered_concat.2 ⟨ih.1, ?_⟩, ?_, nil_subset _⟩
    · exact forall_mem_singleton.2 (body.values_subset_ids hv)
    · exact append_subset.2 ⟨hconcat _ ih.2.1, by simp⟩
  | @call args body target id method _ ht ih =>
    exact ⟨Body.ordered_concat.2 ⟨ih.1, forall_mem_cons.2
      ⟨body.values_subset_ids ht, fun o ho => ih.2.1 ho⟩⟩, nil_subset _, nil_subset _⟩
  | @parameter params body id _ ih =>
    refine ⟨Body.ordered_concat.2 ⟨ih.1, forall_mem_nil _⟩, nil_subset _, ?_⟩
    exact append_subset.2 ⟨hconcat _ ih.2.2, by simp⟩
  | @copy value params body id x _ _ ih =>
    obtain ⟨hordered, _, hparams⟩ := ih
    obtain ⟨hvalue, hparams⟩ := cons_subset.1 hparams
    refine ⟨Body.ordered_concat.2 ⟨hordered, fun o ho => ?_⟩, nil_subset _, hconcat _ hparams⟩
    obtain rfl : o = value := by simpa [Statement.operands, Statement.payloadOperands] using ho
    exact hvalue

theorem Scope.Settled.ordered (h : sc.Settled labels types) : sc.body.Ordered := h.code.refers.1

/-- **All bodies are in order.** -/
theorem Lowered.ordered (h : Lowered ast p) : ∀ m ∈ p.methods, m.body.Ordered := by
  intro m hm
  obtain ⟨_, _, hsettled, _, hbody, _⟩ := h.settled hm
  rw [hbody]
  exact hsettled.ordered

/-! ## Numbers -/

def Takes (sc sc' : Scope) (ids : List StmtId) : Prop :=
  sc.nextId ≤ sc'.nextId ∧ ids = range' sc.nextId (sc'.nextId - sc.nextId)

theorem Takes.nil (sc : Scope) : Takes sc sc [] := ⟨Nat.le_refl _, by simp⟩

theorem Takes.append {ids ids' : List StmtId} (h : Takes sc sc₁ ids) (h' : Takes sc₁ sc' ids') :
    Takes sc sc' (ids ++ ids') := by
  obtain ⟨hle, rfl⟩ := h
  obtain ⟨hle', rfl⟩ := h'
  refine ⟨Nat.le_trans hle hle', ?_⟩
  have hlen : sc'.nextId - sc.nextId =
      (sc₁.nextId - sc.nextId) + (sc'.nextId - sc₁.nextId) := by
    rw [Nat.add_comm, Nat.sub_add_sub_cancel hle' hle]
  rw [hlen, ← range'_append_1, Nat.add_sub_cancel' hle]

theorem Scope.Appends.takes (h : sc.beginMethod.Appends labels sc₁) (hb : body = sc₁.body)
    (hn : sc'.nextId = sc₁.nextId) : Takes sc sc' (body.map (·.id)) := by
  obtain ⟨code, hcode, hids, hnext, _⟩ := h
  obtain rfl : sc₁.body = code := hcode
  have hnext : sc'.nextId = sc.nextId + sc₁.body.length := hn.trans hnext
  refine ⟨hnext ▸ Nat.le_add_right _ _, ?_⟩
  rw [hb, hids, hnext, Nat.add_sub_cancel_left]
  rfl

def methodIds (methods : List Method) : List StmtId :=
  methods.flatMap fun m => m.body.map (·.id)

theorem lowerMethods_takes {owner : String} {all ms : List MethodDecl} {methods : List Method}
    (h : lowerMethods owner all ms sc = .ok methods sc') :
    Takes sc sc' (methodIds methods) := by
  induction ms generalizing methods sc with
  | nil =>
    obtain ⟨rfl, rfl⟩ := pure_eq_ok.1 h
    exact .nil sc
  | cons m ms ih =>
    obtain ⟨method, rest, sc₁, rfl, _, hm, hms⟩ := lowerMethods_cons_cases h
    obtain ⟨sc₂, _, happ, hb, hn⟩ := lowerMethod_settled hm
    exact (happ.takes hb hn).append (ih hms)

theorem lowerClass_takes {decl : ClassDecl} {c : ClassDef} (h : lowerClass decl sc = .ok c sc') :
    Takes sc sc' (methodIds c.methods) := by
  rw [lowerClass] at h
  cases hrep : firstRepeated? [] (decl.fields.map (·.name)) with
  | some field =>
    rw [hrep] at h
    exact absurd h throw_ne_ok
  | none =>
    rw [hrep] at h
    obtain ⟨methods, sc₁, hms, h⟩ := bind_eq_ok.1 h
    obtain ⟨rfl, rfl⟩ := pure_eq_ok.1 h
    exact lowerMethods_takes hms

theorem lowerClasses_takes {seen : List String} {decls : List ClassDecl} {classes : List ClassDef}
    (h : lowerClasses seen decls sc = .ok classes sc') :
    Takes sc sc' (methodIds (classes.flatMap (·.methods))) := by
  induction decls generalizing seen classes sc with
  | nil =>
    obtain ⟨rfl, rfl⟩ := pure_eq_ok.1 h
    exact .nil sc
  | cons decl decls ih =>
    rw [lowerClasses] at h
    split at h
    · exact absurd h throw_ne_ok
    · obtain ⟨c, sc₁, hc, h⟩ := bind_eq_ok.1 h
      obtain ⟨rest, sc₂, hcs, h⟩ := bind_eq_ok.1 h
      obtain ⟨rfl, rfl⟩ := pure_eq_ok.1 h
      rw [flatMap_cons, methodIds, flatMap_append]
      exact (lowerClass_takes hc).append (ih hcs)

/-- **The numbers of a program** are handed out one after the other. -/
theorem ids_of_ofAst (h : Program.ofAst ast = .ok p) :
    methodIds p.methods = range p.nextId := by
  rw [Program.ofAst] at h
  split at h
  · next program sc' hrun =>
    cases h
    change lowerProgram ast {} = .ok p sc' at hrun
    rw [lowerProgram] at hrun
    obtain ⟨main, sc₁, hmain, hrun⟩ := bind_eq_ok.1 hrun
    obtain ⟨classes, sc₂, hclasses, hrun⟩ := bind_eq_ok.1 hrun
    cases hrun
    obtain ⟨sc₃, h₃, hb, hn⟩ := lowerMain_cases hmain
    have htakes := ((lowerStmt_evolves ast.main.body h₃).appends.takes hb hn).append
      (lowerClasses_takes hclasses)
    rw [range_eq_range']
    exact htakes.2
  · cases h

end MiniJava.Ssa
