import MiniJava.Proofs.Initialization
import MiniJava.Proofs.Soundness.Programs

/-!
# The code of checked programs

A program that passed the check executes typed code, under any naming of its fields. Each statement has
the type that the check gave it, and whatever else an execution relies on holds of all code that was
lowered: cells are written before they are read, jumps go to labels of the same method, and methods of
classes end with a return.
-/

namespace MiniJava

open Ssa List Statement Program

/-! ## Bodies -/

theorem Ssa.Body.exists_labelPosition? {body : Body} {l : String} (h : l ∈ body.labelNames) :
    ∃ target, body.labelPosition? l = some target := by
  obtain ⟨e, he, rfl⟩ := mem_map.1 h
  have hfind : (body.labels.reverse.find? (·.1 == e.1)).isSome = true :=
    find?_isSome.2 ⟨e, mem_reverse.2 he, beq_self_eq_true e.1⟩
  obtain ⟨e', he'⟩ := Option.isSome_iff_exists.1 hfind
  exact ⟨e'.2, by rw [labelPosition?, he']; rfl⟩

namespace TypeContext

variable {cx : TypeContext} {naming : FieldNaming} {mx : MethodContext} {ty : StmtId → Option TypeId}
  {body body' : Body}

def executed (cx : TypeContext) (naming : FieldNaming) (ty : StmtId → Option TypeId) (s : Statement) :
    Statement :=
  cx.running naming ty ((ty s.id).getD .void) s

theorem uses_executed (s : Statement) : (cx.executed naming ty s).uses = s.prepared.uses := by
  obtain ⟨_, _, h⟩ := s.prepared_eq
  rw [executed, running, uses_renameField, h]
  rfl

theorem keepsTies_executed : KeepsTies (cx.executed naming ty) where
  id := fun _ => id_renameField
  op := fun _ => op_renameField
  label? := fun _ => label?_renameField
  mergeOperands := by
    intro s
    obtain ⟨_, _, h⟩ := s.prepared_eq
    rw [executed, running, mergeOperands_renameField, ← keepsTies_prepared.mergeOperands s, h]
    rfl

theorem slot?_executed (s : Statement) : (cx.executed naming ty s).slot? = s.slot? :=
  slot?_renameField

theorem Annotates.map_renameField (h : cx.Annotates mx ty body body') :
    body'.map (·.renameField (naming.access cx.types cx.classes) ty) =
      body.map (cx.executed naming ty) := by
  refine map_eq_of_forall₂ h fun s s' hs => ?_
  obtain ⟨type, htype, _, rfl⟩ := hs
  rw [executed, htype]
  rfl

/-- **Annotated bodies are typed.** -/
theorem Annotates.codeTyped (h : cx.Annotates mx ty body body')
    (hty : ∀ id t, ty id = some t → cx.types.Has t) {next : StmtId}
    (hdis : body.prepare.Disciplined next) (hinit : body.Initialized)
    (hshape : body.ShapedInto body.labelNames (·.NamedBy Lexer.IsIdentifier))
    (hreturns : mx.returnType?.isSome = true → ∃ s, body.getLast? = some s ∧ s.op = .ret) :
    CodeTyped cx naming mx ty (body.map (cx.executed naming ty)) where
  rules := by
    intro r hr
    obtain ⟨s, hs, rfl⟩ := mem_map.1 hr
    obtain ⟨s', _, type, htype, hfollows, rfl⟩ := exists_right_of_forall₂ h hs
    obtain ⟨hshaped, _, hnull⟩ := hshape s hs
    refine ⟨s, type, ?_, htype, hfollows, hshaped, hnull⟩
    rw [executed, htype]
    rfl
  has := hty
  distinct := by
    have hids : (body.map (cx.executed naming ty)).map (·.id) = body.map (·.id) := by
      rw [map_map]
      exact map_congr_left fun s _ => keepsTies_executed.id s
    rw [Body.DistinctIds, hids]
    exact hdis.distinct_of_prepare
  tracked := by
    intro r hr o ho
    obtain ⟨s, hs, rfl⟩ := mem_map.1 hr
    obtain ⟨i, hi⟩ := mem_iff_getElem?.1 hs
    have hi' : body.prepare[i]? = some s.prepared := by
      rw [Body.prepare_eq, getElem?_map, hi]
      rfl
    obtain ⟨t', ht', rfl, htr⟩ := hdis.exists_of_mem_uses hi'
      (uses_executed s ▸ reads_subset_uses _ ho)
    have hmem := mem_of_mem_take ht'
    rw [Body.prepare_eq] at hmem
    obtain ⟨t, ht, rfl⟩ := mem_map.1 hmem
    refine ⟨_, mem_map_of_mem ht, (keepsTies_executed.id t).trans t.id_prepared.symm, ?_⟩
    rwa [Body.isTracked_of_keepsTies keepsTies_executed, ← t.isTracked_prepared]
  initialized := by
    refine (hinit.map keepsTies_executed (fun s => ?_) slot?_executed).cells
    rw [uses_executed]
    exact s.uses_prepared_subset
  closed := by
    intro r hr hjump l hl
    obtain ⟨s, hs, rfl⟩ := mem_map.1 hr
    rw [keepsTies_executed.op] at hjump
    rw [keepsTies_executed.label?] at hl
    obtain ⟨_, hjumps, _⟩ := hshape s hs
    obtain ⟨l', hl', heq⟩ := hjumps hjump
    obtain rfl := Option.mem_unique hl heq
    rw [Body.labelPosition?_map keepsTies_executed]
    exact Body.exists_labelPosition? hl'
  returns := by
    intro hsome
    obtain ⟨s, hs, hop⟩ := hreturns hsome
    refine ⟨cx.executed naming ty s, ?_, (keepsTies_executed.op s).trans hop⟩
    rw [getLast?_map, hs]
    rfl

end TypeContext

/-! ## Programs -/

theorem Ssa.FieldNaming.access_eq {naming : FieldNaming} {types : TypeTable}
    {R : Method → Method → Prop} {cs ds : List ClassDef}
    (h : List.Forall₂ (ClassDef.Matches R) cs ds) : naming.access types ds = naming.access types cs := by
  funext target field
  rw [access, access, fieldOwner?, fieldOwner?]
  rcases find?_forall₂ (forall₂_chainIn h (types.name target))
    (f := fun c => (c.field? field).isSome) (g := fun c => (c.field? field).isSome)
    (fun c d hcd => by rw [ClassDef.field?, hcd.fields_eq]; rfl) with ⟨hc, hd⟩ | ⟨c, d, hcd, hc, hd⟩
  · rw [hc, hd]
  · rw [hc, hd]
    exact congrArg (naming · field) hcd.name_eq

namespace Ssa

variable {ast : Ast.Program} {p q : Program} {cx : TypeContext} {naming : FieldNaming} {m m' : Method}

theorem Checked.exists_body_eq (h : Checked p q cx)
    (hm : m ∈ methods { p with classes := cx.classes }) : ∃ m₀ ∈ p.methods, m.body = m₀.body :=
  exists_left_of_forall₂ (forall₂_typeContext (R := fun m m' => m'.body = m.body)
    (fun _ => rfl) (fun _ _ _ => rfl) h.context) hm

theorem Checked.getLast?_body (h : Checked p q cx) (hp : Lowered ast p)
    (hm : m ∈ methods { p with classes := cx.classes })
    (hsome : m.returnType?.isSome = true) : ∃ s, m.body.getLast? = some s ∧ s.op = .ret := by
  rcases mem_cons.1 hm with rfl | hm
  · obtain ⟨_, _, hmain, _⟩ := hp.main
    change p.main.returnType?.isSome = true at hsome
    rw [lowerMain_head hmain] at hsome
    cases hsome
  · obtain ⟨c', hc', hm⟩ := mem_flatMap.1 hm
    obtain ⟨c, hc, hresolve⟩ := exists_left_of_forall₂ (typeContext_eq_ok.1 h.context).2 hc'
    obtain ⟨_, methods, _, hmethods, rfl⟩ := ClassDef.resolve_eq_ok.1 hresolve
    obtain ⟨m₀, hm₀, hresolve⟩ := exists_left_of_forall₂ hmethods hm
    obtain ⟨_, _, _, _, rfl⟩ := Method.resolve_eq_ok.1 hresolve
    obtain ⟨_, _, decl, _, sc, sc', hlower, _⟩ := hp.exists_decl hc hm₀
    obtain ⟨_, _, result, sc₃, _, _, _, _, hbody, _⟩ := lowerMethod_cases hlower
    refine ⟨⟨sc₃.nextId, .ret, some result, none, .none, none, none, none⟩, ?_, rfl⟩
    rw [hbody]
    exact getLast?_concat

/-- **The methods of a checked program execute typed code.** -/
theorem Checked.exists_codeTyped (h : Checked p q cx) (hp : Lowered ast p)
    (hids : ast.nodeIds.Nodup) (hnames : ∀ c ∈ ast.classes, c.NamedBy Lexer.IsIdentifier)
    (hm : m ∈ methods { p with classes := cx.classes })
    (hcheck : cx.checkMethod m = (m', .ok ())) :
    ∃ ty, CodeTyped cx naming (cx.methodContext m) ty
      (m'.renameFields (naming.access q.types q.classes)).body := by
  obtain ⟨m₀, hm₀, hbody⟩ := h.exists_body_eq hm
  have hdis := hp.disciplined m₀ hm₀
  have hinit := hp.initialized hids m₀ hm₀
  have hshape : m₀.body.ShapedInto m₀.body.labelNames (·.NamedBy Lexer.IsIdentifier) := by
    refine (hp.shapedInto m₀ hm₀).mono ?_
    rintro t ⟨c, hc, decl, hdecl, d, hd, rfl⟩
    exact ((hnames c hc).methods decl hdecl).locals d hd
  rw [← hbody] at hdis hinit hshape
  obtain ⟨ty, hty, hannotates⟩ := TypeContext.annotates_of_checkMethod (hp.lawful h.context)
    (h.signed hp m hm) hdis.distinct_of_prepare hcheck
  have htype := hannotates.type?_eq hdis.distinct_of_prepare fun id t ht => (hty id t ht).2
  refine ⟨ty, ?_⟩
  rw [Method.renameFields, htype, h.types, FieldNaming.access_eq h.code.classes]
  change CodeTyped cx naming _ ty (m'.body.map _)
  rw [hannotates.map_renameField]
  exact hannotates.codeTyped (fun id t ht => (hty id t ht).1) hdis hinit hshape
    (h.getLast?_body hp hm)

theorem Checked.declared (h : Checked p q cx) (hp : Lowered ast p)
    (hnames : ∀ c ∈ ast.classes, c.NamedBy Lexer.IsIdentifier) {c : ClassDef} (hc : c ∈ cx.classes) :
    Lexer.IsIdentifier c.name ∧ (∀ f ∈ c.fields, f.decl.NamedBy Lexer.IsIdentifier) ∧
      ∀ m ∈ c.methods, m.owner? = some c.name := by
  obtain ⟨c₀, hc₀, hresolve⟩ := exists_left_of_forall₂ (typeContext_eq_ok.1 h.context).2 hc
  obtain ⟨decl, hdecl, hlowered⟩ := exists_left_of_forall₂ hp.classes hc₀
  obtain ⟨fields, methods, hfields, hmethods, rfl⟩ := ClassDef.resolve_eq_ok.1 hresolve
  refine ⟨hlowered.name ▸ (hnames decl hdecl).name, fun f hf => ?_, fun m hm => ?_⟩
  · obtain ⟨f₀, hf₀, hf⟩ := exists_left_of_forall₂ hfields hf
    obtain ⟨_, _, rfl⟩ := Field.resolve_eq_ok.1 hf
    rw [hlowered.fields] at hf₀
    obtain ⟨d, hd, rfl⟩ := mem_map.1 hf₀
    exact (hnames decl hdecl).fields d hd
  · obtain ⟨m₀, hm₀, hm⟩ := exists_left_of_forall₂ hmethods hm
    obtain ⟨_, _, _, _, rfl⟩ := Method.resolve_eq_ok.1 hm
    obtain ⟨_, _, _, _, _, _, hlower, _⟩ := hp.exists_decl hc₀ hm₀
    rw [lowerMethod_head hlower]

/-- **Checked programs execute typed code.** -/
theorem Checked.runs (h : Checked p q cx) (hp : Lowered ast p) (hids : ast.nodeIds.Nodup)
    (hnames : ∀ c ∈ ast.classes, c.NamedBy Lexer.IsIdentifier) :
    (q.named naming).Runs cx naming where
  types := h.types
  main := by
    obtain ⟨ty, hcode⟩ := h.exists_codeTyped hp hids hnames mem_cons_self h.code.main
    obtain ⟨_, _, hmain, _⟩ := hp.main
    refine ⟨_, ty, ?_, ?_, hcode⟩
    · change p.main.owner?.bind _ = none
      rw [lowerMain_head hmain]
      rfl
    · change p.main.paramTypes = []
      rw [lowerMain_head hmain]
  classes := by
    change List.Forall₂ _ cx.classes (q.classes.map _)
    rw [forall₂_map_right_iff]
    refine forall₂_imp_mem h.code.classes fun c hc d hcd => ?_
    obtain ⟨_, hfields, howners⟩ := h.declared hp hnames hc
    refine ⟨hcd.name_eq, hcd.parent_eq, ?_, ?_, hfields, howners⟩
    · rw [ClassDef.renameFields, hcd.name_eq, hcd.fields_eq]
    · change List.Forall₂ _ c.methods (d.methods.map _)
      rw [forall₂_map_right_iff]
      refine forall₂_imp_mem hcd.2 fun m hm m' hcheck => ⟨?_, ?_⟩
      · obtain ⟨_, _, _, rfl⟩ := TypeContext.checkMethod_eq_ok.1 hcheck
        rfl
      · exact h.exists_codeTyped hp hids hnames
          (mem_cons_of_mem _ (mem_flatMap.2 ⟨c, hc, hm⟩)) hcheck

end Ssa

end MiniJava
