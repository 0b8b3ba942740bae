import MiniJava.Proofs.Allocation.Rounds
import MiniJava.Proofs.Lowering.Programs
import MiniJava.Typing

/-!
# Checked programs

A check resolves the declarations of a program and then annotates its statements. It changes no code:
apart from types, a body differs from what it was only in the operand of assignments that named the
previous value, which register allocation drops as well. So a checked program can be allocated just as
well as the program before, and also one whose check failed halfway.
-/

namespace MiniJava

open Ssa

variable {types : TypeTable} {p : Program} {ast : Ast.Program}

/-! ## Annotated bodies -/

namespace Ssa

def Method.SameCode (m m' : Method) : Prop := m'.body.prepare.bare = m.body.prepare.bare

theorem Method.SameCode.refl (m : Method) : m.SameCode m := rfl

theorem Statement.pin_annotate (s : Statement) (type : TypeId) :
    (TypeContext.annotate s type).pin =
      { s.pin with right? := (TypeContext.annotate s type).right?, type? := some type } := by
  have hop : (TypeContext.annotate s type).op = s.op := rfl
  have hpos : (TypeContext.annotate s type).position? = s.position? := rfl
  unfold pin
  rw [hop, hpos]
  split
  · split <;> rfl
  · split <;> rfl
  · rfl

theorem Statement.bare_prepared_annotate (s : Statement) (type : TypeId) :
    (TypeContext.annotate s type).prepared.bare = s.prepared.bare := by
  obtain ⟨_, _, hpin⟩ := s.pin_eq
  have hop : s.pin.op = s.op := by rw [hpin]
  have hright : s.pin.right? = s.right? := by rw [hpin]
  rw [prepared, prepared, pin_annotate, bare, bare]
  by_cases h : s.op = .assignVar
  · simp [hop, h]
  · simp [hop, h, TypeContext.annotate, hright]

theorem Body.bare_prepare_eq_of_forall₂ {body body' : Body}
    (h : List.Forall₂ (fun s s' : Statement => s'.prepared.bare = s.prepared.bare) body body') :
    body'.prepare.bare = body.prepare.bare := by
  rw [prepare_eq, prepare_eq, bare, bare]
  induction h with
  | nil => rfl
  | cons hs _ ih =>
    simp only [List.map_cons]
    rw [hs, ih]

end Ssa

namespace TypeContext

variable (cx : TypeContext)

theorem sameCode_checkMethod (m : Method) : m.SameCode (cx.checkMethod m).1 := by
  have hstep : ∀ mx typed s, (cx.checkStmt mx typed s).1.prepared.bare = s.prepared.bare := by
    intro mx typed s
    rw [checkStmt]
    split
    · exact s.bare_prepared_annotate _
    · rfl
  exact Body.bare_prepare_eq_of_forall₂
    (forall₂_sweep (R := fun s s' : Statement => s'.prepared.bare = s.prepared.bare) (fun _ => rfl)
      (hstep _) [] m.body)

end TypeContext

/-! ## Resolved declarations -/

namespace Ssa

theorem Field.resolve_eq_ok {f f' : Field} : f.resolve types = .ok f' ↔
      ∃ type, types.resolve f.decl = .ok type ∧ f' = { f with type? := some type } := by
  rw [resolve, except_bind_eq_ok]
  exact exists_congr fun type => and_congr_right fun _ =>
    ⟨fun h => (Except.ok.inj h).symm, fun h => h ▸ rfl⟩

def Method.Returns (types : TypeTable) (m : Method) (type : TypeId) : Prop :=
  match m.returnDecl? with
  | some decl => types.resolve decl = .ok type
  | none => type = .void

theorem Method.resolve_eq_ok {m m' : Method} : m.resolve types = .ok m' ↔ ∃ paramTypes returnType,
      List.Forall₂ (fun p t => types.resolve p.type = .ok t) m.params paramTypes ∧
        m.Returns types returnType ∧ m' = { m with paramTypes, returnType? := some returnType } := by
  rw [resolve, except_bind_eq_ok]
  refine exists_congr fun paramTypes => ?_
  rw [mapM_eq_ok_iff]
  simp only [Returns]
  cases hdecl : m.returnDecl? with
  | some decl =>
    simp only [exists_and_left, except_bind_eq_ok]
    refine and_congr_right fun _ => exists_congr fun returnType => and_congr_right fun _ => ?_
    exact ⟨fun h => (Except.ok.inj h).symm, fun h => h ▸ rfl⟩
  | none =>
    simp only [exists_and_left, exists_eq_left]
    refine and_congr_right fun _ => ?_
    exact ⟨fun h => (Except.ok.inj h).symm, fun h => h ▸ rfl⟩

theorem ClassDef.resolve_eq_ok {c c' : ClassDef} : c.resolve types = .ok c' ↔ ∃ fields methods,
      List.Forall₂ (fun f f' => Field.resolve types f = .ok f') c.fields fields ∧
        List.Forall₂ (fun m m' => Method.resolve types m = .ok m') c.methods methods ∧
          c' = { c with fields, methods } := by
  rw [resolve, except_bind_eq_ok]
  refine exists_congr fun fields => ?_
  rw [mapM_eq_ok_iff, except_bind_eq_ok, ← exists_and_left]
  refine exists_congr fun methods => and_congr_right fun _ => ?_
  rw [mapM_eq_ok_iff]
  exact and_congr_right fun _ => ⟨fun h => (Except.ok.inj h).symm, fun h => h ▸ rfl⟩

theorem Program.typeContext_eq_ok {cx : TypeContext} :
    p.typeContext = .ok cx ↔ TypeTable.ofClasses p.classes = .ok cx.types ∧
      List.Forall₂ (fun c c' => ClassDef.resolve cx.types c = .ok c') p.classes cx.classes := by
  rw [typeContext, except_bind_eq_ok]
  constructor
  · rintro ⟨types, htypes, h⟩
    obtain ⟨classes, hclasses, h⟩ := except_bind_eq_ok.1 h
    cases h
    exact ⟨htypes, mapM_eq_ok_iff.1 hclasses⟩
  · rintro ⟨htypes, hclasses⟩
    exact ⟨_, htypes, except_bind_eq_ok.2 ⟨_, mapM_eq_ok_iff.2 hclasses, rfl⟩⟩

/-! ## Programs -/

structure Checked (p q : Program) (cx : TypeContext) : Prop where
  context : p.typeContext = .ok cx
  code : Program.Matches (fun m m' => cx.checkMethod m = (m', .ok ()))
    { p with classes := cx.classes } q
  types : q.types = cx.types
  nextId : q.nextId = p.nextId

/-- **What a successful check did.** -/
theorem checked_of_check {q : Program} (h : p.check = (q, .ok ())) : ∃ cx, Checked p q cx := by
  rw [Program.check] at h
  split at h
  · cases (Prod.mk.inj h).2
  · next cx hcx =>
    split at h
    · next q' u hsweep =>
      obtain ⟨_, hmatches, htypes, hnext⟩ := Program.matches_of_sweep_ok
        (R := fun m m' => cx.checkMethod m = (m', .ok ())) hsweep trivial
        fun _ _ _ _ _ _ h => ⟨trivial, h⟩
      obtain ⟨rfl, _⟩ := Prod.mk.inj h
      exact ⟨cx, hcx, ⟨hmatches.main, hmatches.classes⟩, rfl, hnext⟩
    · cases (Prod.mk.inj h).2

theorem Method.SameCode.trans {m m' m'' : Method} (h : m.SameCode m') (h' : m'.SameCode m'') :
    m.SameCode m'' := Eq.trans h' h

theorem Program.forall₂_typeContext {R : Method → Method → Prop} (hrefl : ∀ m, R m m)
    (hresolve : ∀ m paramTypes returnType?, R m { m with paramTypes, returnType? })
    {cx : TypeContext} (h : p.typeContext = .ok cx) :
    List.Forall₂ R p.methods { p with classes := cx.classes }.methods := by
  refine .cons (hrefl _) (List.rel_flatMap (typeContext_eq_ok.1 h).2 fun c c' hc => ?_)
  obtain ⟨fields, methods, _, hmethods, rfl⟩ := ClassDef.resolve_eq_ok.1 hc
  refine hmethods.imp fun m m' hm => ?_
  obtain ⟨paramTypes, returnType, _, _, rfl⟩ := Method.resolve_eq_ok.1 hm
  exact hresolve m paramTypes (some returnType)

theorem Program.sameCode_typeContext {cx : TypeContext} (h : p.typeContext = .ok cx) :
    List.Forall₂ Method.SameCode p.methods { p with classes := cx.classes }.methods :=
  forall₂_typeContext Method.SameCode.refl (fun _ _ _ => rfl) h

theorem Program.forall₂_check {R : Method → Method → Prop} (hrefl : ∀ m, R m m)
    (htrans : ∀ m₁ m₂ m₃, R m₁ m₂ → R m₂ m₃ → R m₁ m₃)
    (hresolve : ∀ m paramTypes returnType?, R m { m with paramTypes, returnType? })
    (hcheck : ∀ (cx : TypeContext) m, R m (cx.checkMethod m).1) (p : Program) :
    List.Forall₂ R p.methods p.check.1.methods := by
  rw [check]
  split
  · exact List.forall₂_same.2 fun m _ => hrefl m
  · next cx hcx =>
    have hchecked := (Program.matches_sweep hrefl (fun _ : Unit => hcheck cx) ()
      { p with classes := cx.classes }).methods
    have hall := forall₂_trans (forall₂_typeContext hrefl hresolve hcx) hchecked htrans
    split <;> next heq => rw [heq] at hall; exact hall

/-- **A check changes no code,** even if it fails. -/
theorem Program.exists_of_mem_check {m' : Method} (h : m' ∈ p.check.1.methods) :
    ∃ m ∈ p.methods, m.SameCode m' :=
  exists_left_of_forall₂ (p.forall₂_check Method.SameCode.refl (fun _ _ _ => Method.SameCode.trans)
    (fun _ _ _ => rfl) fun cx => cx.sameCode_checkMethod) h

theorem Program.nextId_check (p : Program) : p.check.1.nextId = p.nextId := by
  have hsweep : ∀ (p : Program) (cx : TypeContext),
      (p.sweep (fun _ => cx.checkMethod) ()).1.nextId = p.nextId := by
    intro p cx
    rw [Program.sweep]
    split <;> rfl
  rw [check]
  split
  · rfl
  · next cx _ =>
    have hnext := hsweep { p with classes := cx.classes } cx
    split <;> next heq => rw [heq] at hnext; exact hnext

/-- **A lowered program stays disciplined** under a check. -/
theorem Lowered.disciplined_check (h : Lowered ast p) :
    ∀ m ∈ p.check.1.methods, m.body.prepare.Disciplined p.check.1.nextId := by
  intro m' hm'
  obtain ⟨m, hm, hsame⟩ := Program.exists_of_mem_check hm'
  rw [p.nextId_check]
  exact (h.disciplined m hm).of_bare hsame

theorem Lowered.disciplined_of_check {p' : Program} (h : Lowered ast p)
    (hp' : p' = p ∨ p' = p.check.1) : ∀ m ∈ p'.methods, m.body.prepare.Disciplined p'.nextId := by
  rcases hp' with rfl | rfl
  · exact h.disciplined
  · exact h.disciplined_check

end Ssa

end MiniJava
