import MiniJava.Proofs.Hierarchy.Resolution
import MiniJava.Proofs.Typing.Representation

/-!
# Programs with a type table

A program has a table of types exactly if no class has the name of a built-in type and every chain of
parents ends. What is left then is that the declared types exist.
-/

namespace MiniJava

open Ast Ssa TypeTable

/-! ## Chains of a source -/

section Chains

variable {ast : Ast.Program} {cs : List ClassDef}
  (hcs : List.Forall₂ (fun (decl : ClassDecl) (c : ClassDef) => c.name = decl.name ∧
    c.parent? = decl.parent?) ast.classes cs)
include hcs

theorem grounded_iff {n : String} : TypeTable.Grounded cs n ↔ ast.Grounded n := by
  constructor
  · rintro ⟨last, hreach, hlast⟩
    induction hreach using Relation.ReflTransGen.head_induction_on with
    | refl =>
      rcases hlast with rfl | ⟨c, hc, rfl, hparent⟩
      · exact .object
      · obtain ⟨decl, hdecl, hname, hp⟩ := exists_left_of_forall₂ hcs hc
        exact hname ▸ .root hdecl (hp.symm.trans hparent)
    | head hstep _ ih =>
      obtain ⟨c, hc, rfl, hparent⟩ := hstep
      obtain ⟨decl, hdecl, hname, hp⟩ := exists_left_of_forall₂ hcs hc
      exact hname ▸ .parent hdecl (hp.symm.trans hparent) ih
  · intro hn
    induction hn with
    | object => exact grounded_object cs
    | root hdecl hparent =>
      obtain ⟨c, hc, hname, hp⟩ := exists_right_of_forall₂ hcs hdecl
      exact hname ▸ grounded_root hc (hp.trans hparent)
    | parent hdecl hparent _ ih =>
      obtain ⟨c, hc, hname, hp⟩ := exists_right_of_forall₂ hcs hdecl
      exact hname ▸ ih.below hc (hp.trans hparent)

/-- **Programs with a table.** -/
theorem TypeTable.exists_ofClasses (hd : (cs.map (·.name)).Nodup)
    (hnames : ∀ decl ∈ ast.classes, decl.name ∉ builtinNames)
    (hg : ∀ decl ∈ ast.classes, ast.Grounded decl.name) : ∃ t, ofClasses cs = .ok t := by
  refine (exists_ofClasses_iff hd).2 ⟨fun c hc => ?_, fun c hc => (grounded_iff hcs).2 ?_⟩
  · obtain ⟨decl, hdecl, hname, _⟩ := exists_left_of_forall₂ hcs hc
    exact hname ▸ hnames decl hdecl
  · obtain ⟨decl, hdecl, hname, _⟩ := exists_left_of_forall₂ hcs hc
    exact hname ▸ hg decl hdecl

end Chains

/-- **The chains of a table end.** -/
theorem TypeContext.Represents.grounded {cx : TypeContext} {ast : Ast.Program} {decl : ClassDecl}
    (h : cx.Represents ast) (hdecl : decl ∈ ast.classes) : ast.Grounded decl.name := by
  obtain ⟨c, hc, hclass⟩ := exists_right_of_forall₂ h.classes hdecl
  have hcs := h.classes.imp fun _ _ hclass => And.intro hclass.name hclass.parent?
  exact hclass.name ▸ (grounded_iff hcs).1 (h.lawful.hierarchy.grounded hc)

/-! ## Type contexts -/

section Declarations

variable {types : TypeTable} {ast : Ast.Program} {bound : StmtId}
  (htypes : ∀ {σ : String}, ast.IsType σ → ∃ id, types.lookup? σ = some id)
include htypes

theorem exists_resolve {decl : TypeName} (h : ast.IsType decl.text) :
    ∃ id, types.resolve decl = .ok id := by
  obtain ⟨id, hid⟩ := htypes h
  exact ⟨id, resolve_eq_ok.2 hid⟩

theorem exists_resolve_method {owner : String} {decl : MethodDecl} {m : Method}
    (h : LoweredMethod owner bound decl m) (hparams : ∀ d ∈ decl.params, ast.IsType d.type.text)
    (hresult : ast.IsType decl.returnType.text) : ∃ m', m.resolve types = .ok m' := by
  obtain ⟨sc, sc', hm, _⟩ := h
  have hhead := lowerMethod_head hm
  obtain ⟨paramTypes, hp⟩ : ∃ ts, decl.params.mapM (fun d => types.resolve d.type) = .ok ts :=
    exists_mapM_eq_ok fun d hd => exists_resolve htypes (hparams d hd)
  obtain ⟨returnType, hr⟩ := exists_resolve htypes hresult
  refine ⟨_, Method.resolve_eq_ok.2 ⟨paramTypes, returnType, ?_, ?_, rfl⟩⟩
  · rw [hhead]
    exact mapM_eq_ok_iff.1 hp
  · rw [hhead]
    exact hr

theorem exists_resolve_class {decl : ClassDecl} {c : ClassDef} (h : LoweredClass bound decl c)
    (hdecl : decl.Resolves ast) : ∃ c', c.resolve types = .ok c' := by
  obtain ⟨fields, hfields⟩ : ∃ fields, c.fields.mapM (Field.resolve types) = .ok fields := by
    refine exists_mapM_eq_ok fun f hf => ?_
    rw [h.fields] at hf
    obtain ⟨d, hd, rfl⟩ := List.mem_map.1 hf
    obtain ⟨id, hid⟩ := exists_resolve htypes (hdecl.fields d hd)
    exact ⟨_, Field.resolve_eq_ok.2 ⟨id, hid, rfl⟩⟩
  obtain ⟨methods, hmethods⟩ : ∃ methods, c.methods.mapM (Method.resolve types) = .ok methods := by
    refine exists_mapM_eq_ok fun m hm => ?_
    obtain ⟨d, hd, hlowered⟩ := exists_left_of_forall₂ h.methods hm
    exact exists_resolve_method htypes hlowered (hdecl.params d hd) (hdecl.results d hd)
  exact ⟨_, ClassDef.resolve_eq_ok.2 ⟨fields, methods, mapM_eq_ok_iff.1 hfields,
    mapM_eq_ok_iff.1 hmethods, rfl⟩⟩

end Declarations

theorem TypeContext.Represents.resolves {cx : TypeContext} {ast : Ast.Program} {decl : ClassDecl}
    (h : cx.Represents ast) (hdecl : decl ∈ ast.classes) : decl.Resolves ast := by
  obtain ⟨c, _, hclass⟩ := exists_right_of_forall₂ h.classes hdecl
  refine ⟨fun f hf => ?_, fun m hm d hd => ?_, fun m hm => ?_⟩
  · obtain ⟨_, _, _, t, _, ht⟩ := exists_right_of_forall₂ hclass.fields hf
    exact h.isType_iff.2 ⟨t, ht⟩
  · obtain ⟨_, _, hmethod⟩ := exists_right_of_forall₂ hclass.methods hm
    obtain ⟨t, _, ht⟩ := exists_right_of_forall₂ hmethod.params hd
    exact h.isType_iff.2 ⟨t, ht⟩
  · obtain ⟨_, _, hmethod⟩ := exists_right_of_forall₂ hclass.methods hm
    obtain ⟨t, _, ht⟩ := hmethod.result
    exact h.isType_iff.2 ⟨t, ht⟩

/-- **Programs with a type context.** -/
theorem Ssa.Lowered.exists_typeContext_iff {ast : Ast.Program} {p : Ssa.Program}
    (h : Lowered ast p) : (∃ cx, p.typeContext = .ok cx) ↔ ∀ decl ∈ ast.classes,
      decl.name ∉ builtinNames ∧ ast.Grounded decl.name ∧ decl.Resolves ast := by
  constructor
  · rintro ⟨cx, hcx⟩ decl hdecl
    have hrep := h.represents hcx
    exact ⟨hrep.name_not_mem_builtinNames hdecl, hrep.grounded hdecl, hrep.resolves hdecl⟩
  · intro hdecls
    have hnames : p.classes.map (·.name) = ast.classes.map (·.name) :=
      map_eq_of_forall₂ h.classes fun _ _ hc => hc.name
    have hnodup : (p.classes.map (·.name)).Nodup := hnames ▸ h.nodup_classes
    obtain ⟨types, htypes⟩ := exists_ofClasses
      (h.classes.imp fun _ _ hc => ⟨hc.name, hc.parent?⟩) hnodup
      (fun decl hdecl => (hdecls decl hdecl).1) fun decl hdecl => (hdecls decl hdecl).2.1
    have hlookup : ∀ {σ : String}, ast.IsType σ → ∃ id, types.lookup? σ = some id :=
      ((hierarchy_of_ofClasses htypes hnodup).isType_iff hnames).1
    obtain ⟨classes, hclasses⟩ : ∃ cs, p.classes.mapM (ClassDef.resolve types) = .ok cs := by
      refine exists_mapM_eq_ok fun c hc => ?_
      obtain ⟨decl, hdecl, hlowered⟩ := exists_left_of_forall₂ h.classes hc
      exact exists_resolve_class hlookup hlowered (hdecls decl hdecl).2.2
    exact ⟨⟨types, classes⟩, Program.typeContext_eq_ok.2 ⟨htypes, mapM_eq_ok_iff.1 hclasses⟩⟩

end MiniJava
