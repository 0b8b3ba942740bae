import Mathlib.Data.List.Nodup
import MiniJava.Proofs.Lowering.Discipline
import MiniJava.Proofs.Lowering.Shapes
import MiniJava.Proofs.Sweeps

/-!
# The code of programs

Lowering a program lowers its entry point and the methods of its classes one after the other, under
numbers that go on from method to method. What the rest of the compiler may rely on is collected here:
which declaration each class and each method comes from, that names are declared once, and that all
bodies are disciplined.
-/

namespace MiniJava

open List

variable {sc sc' : Scope} {owner : String} {decl : MethodDecl} {m : Method}
  {names seen : List String} {all ms : List MethodDecl} {methods : List Method}
  {bound bound' : StmtId} {c : ClassDef} {body : Body}

def Ast.Program.HasLocal (p : Ast.Program) (t : TypeName) : Prop :=
  ∃ c ∈ p.classes, ∃ m ∈ c.methods, ∃ d ∈ m.locals, d.type = t

namespace Ssa

open Ast Build

/-! ## Methods -/

def LoweredMethod (owner : String) (bound : StmtId) (decl : MethodDecl) (m : Method) : Prop :=
  ∃ sc sc', lowerMethod owner decl sc = .ok m sc' ∧ sc'.nextId ≤ bound

theorem Scope.Appends.labelNames_beginMethod {labels : List String}
    (h : sc.beginMethod.Appends labels sc') : sc'.body.labelNames = labels := by
  obtain ⟨code, hb, _, _, hlabels⟩ := h
  rw [hb, ← hlabels]
  rfl

theorem lowerMethod_head (h : lowerMethod owner decl sc = .ok m sc') :
    m = { name := decl.name, owner? := some owner, params := decl.params
          returnDecl? := some decl.returnType, body := m.body } := by
  rw [lowerMethod] at h
  obtain ⟨_, _, _, h⟩ := Build.bind_eq_ok.1 h
  obtain ⟨_, _, _, h⟩ := Build.bind_eq_ok.1 h
  obtain ⟨_, _, _, h⟩ := Build.bind_eq_ok.1 h
  obtain ⟨_, _, _, h⟩ := Build.bind_eq_ok.1 h
  obtain ⟨_, _, _, h⟩ := Build.bind_eq_ok.1 h
  obtain ⟨_, _, _, h⟩ := Build.bind_eq_ok.1 h
  cases h
  rfl

theorem lowerMain_head {main : MainClass} (h : lowerMain main sc = .ok m sc') :
    m = { name := "main", owner? := none, body := m.body } := by
  rw [lowerMain] at h
  obtain ⟨_, _, _, h⟩ := Build.bind_eq_ok.1 h
  obtain ⟨_, _, _, h⟩ := Build.bind_eq_ok.1 h
  cases h
  rfl

/-! ## Classes -/

structure LoweredClass (bound : StmtId) (decl : ClassDecl) (c : ClassDef) : Prop where
  name : c.name = decl.name
  parent? : c.parent? = decl.parent?
  fields : c.fields = decl.fields.map fun f => { name := f.name, decl := f.type }
  methods : List.Forall₂ (LoweredMethod decl.name bound) decl.methods c.methods
  nodup_fields : (decl.fields.map (·.name)).Nodup
  nodup_methods : (decl.methods.map (·.name)).Nodup

theorem nodup_of_firstRepeated? (h : firstRepeated? seen names = none) :
    names.Nodup ∧ ∀ name ∈ names, name ∉ seen := by
  induction names generalizing seen with
  | nil => simp
  | cons name names ih =>
    rw [firstRepeated?] at h
    split at h
    · cases h
    · next hnot =>
      rw [contains_iff_mem] at hnot
      obtain ⟨hnodup, hseen⟩ := ih h
      refine ⟨nodup_cons.2 ⟨fun hmem => hseen _ hmem mem_cons_self, hnodup⟩, ?_⟩
      intro other hmem
      rcases mem_cons.1 hmem with rfl | hmem
      · exact hnot
      · exact fun hs => hseen _ hmem (mem_cons_of_mem _ hs)

theorem nodup_of_length_filter_le (h : ∀ name ∈ names, (names.filter (· == name)).length ≤ 1) :
    names.Nodup := by
  refine nodup_iff_count_le_one.2 fun name => ?_
  by_cases hmem : name ∈ names
  · rw [count_eq_length_filter]
    exact h name hmem
  · rw [count_eq_zero_of_not_mem hmem]
    exact Nat.zero_le _

theorem lowerMethods_cons_cases {m : MethodDecl}
    (h : lowerMethods owner all (m :: ms) sc = .ok methods sc') :
    ∃ method rest sc₁, methods = method :: rest ∧ (all.filter (·.name == m.name)).length ≤ 1 ∧
      lowerMethod owner m sc = .ok method sc₁ ∧ lowerMethods owner all ms sc₁ = .ok rest sc' := by
  rw [lowerMethods] at h
  split at h
  · exact absurd h Build.throw_ne_ok
  · next hle =>
    obtain ⟨method, sc₁, hm, h⟩ := Build.bind_eq_ok.1 h
    obtain ⟨rest, sc₂, hms, h⟩ := Build.bind_eq_ok.1 h
    obtain ⟨rfl, rfl⟩ := Build.pure_eq_ok.1 h
    exact ⟨method, rest, sc₁, rfl, Nat.not_lt.1 hle, hm, hms⟩

theorem lowerMethods_spec (h : lowerMethods owner all ms sc = .ok methods sc') :
    List.Forall₂ (LoweredMethod owner sc'.nextId) ms methods ∧ sc.nextId ≤ sc'.nextId ∧
      ∀ m ∈ ms, (all.filter (·.name == m.name)).length ≤ 1 := by
  induction ms generalizing methods sc with
  | nil =>
    obtain ⟨rfl, rfl⟩ := Build.pure_eq_ok.1 h
    exact ⟨.nil, Nat.le_refl _, by simp⟩
  | cons m ms ih =>
    obtain ⟨method, rest, sc₁, rfl, hle, hm, hms⟩ := lowerMethods_cons_cases h
    obtain ⟨hrest, hnext, honce⟩ := ih hms
    obtain ⟨sc₂, _, happ, _, hn⟩ := lowerMethod_settled hm
    refine ⟨.cons ⟨sc, sc₁, hm, hnext⟩ hrest, ?_, ?_⟩
    · exact Nat.le_trans (Nat.le_trans happ.nextId_le (Nat.le_of_eq hn.symm)) hnext
    · intro m' hmem
      rcases mem_cons.1 hmem with rfl | hmem
      · exact hle
      · exact honce m' hmem

theorem LoweredMethod.mono (h : LoweredMethod owner bound decl m) (hle : bound ≤ bound') :
    LoweredMethod owner bound' decl m := by
  obtain ⟨sc, sc', hm, hn⟩ := h
  exact ⟨sc, sc', hm, Nat.le_trans hn hle⟩

theorem LoweredClass.mono {decl : ClassDecl} (h : LoweredClass bound decl c)
    (hle : bound ≤ bound') : LoweredClass bound' decl c :=
  { h with methods := h.methods.imp fun _ _ hm => hm.mono hle }

theorem lowerClass_spec {decl : ClassDecl} (h : lowerClass decl sc = .ok c sc') :
    LoweredClass sc'.nextId decl c ∧ sc.nextId ≤ sc'.nextId := by
  rw [lowerClass] at h
  cases hrep : firstRepeated? [] (decl.fields.map (·.name)) with
  | some field =>
    rw [hrep] at h
    exact absurd h Build.throw_ne_ok
  | none =>
    rw [hrep] at h
    obtain ⟨methods, sc₁, hms, h⟩ := Build.bind_eq_ok.1 h
    obtain ⟨rfl, rfl⟩ := Build.pure_eq_ok.1 h
    obtain ⟨hmethods, hnext, honce⟩ := lowerMethods_spec hms
    have hnodup : (decl.methods.map (·.name)).Nodup := by
      refine nodup_of_length_filter_le fun name hname => ?_
      obtain ⟨m, hm, rfl⟩ := mem_map.1 hname
      rw [filter_map, length_map]
      exact honce m hm
    exact ⟨⟨rfl, rfl, rfl, hmethods, (nodup_of_firstRepeated? hrep).1, hnodup⟩, hnext⟩

theorem lowerClasses_spec {decls : List ClassDecl} {classes : List ClassDef}
    (h : lowerClasses seen decls sc = .ok classes sc') :
    List.Forall₂ (LoweredClass sc'.nextId) decls classes ∧ sc.nextId ≤ sc'.nextId ∧
      (decls.map (·.name)).Nodup ∧ ∀ c ∈ decls, c.name ∉ seen := by
  induction decls generalizing seen classes sc with
  | nil =>
    obtain ⟨rfl, rfl⟩ := Build.pure_eq_ok.1 h
    exact ⟨.nil, Nat.le_refl _, nodup_nil, by simp⟩
  | cons decl decls ih =>
    rw [lowerClasses] at h
    split at h
    · exact absurd h Build.throw_ne_ok
    · next hnot =>
      rw [contains_iff_mem] at hnot
      obtain ⟨c, sc₁, hc, h⟩ := Build.bind_eq_ok.1 h
      obtain ⟨rest, sc₂, hcs, h⟩ := Build.bind_eq_ok.1 h
      obtain ⟨rfl, rfl⟩ := Build.pure_eq_ok.1 h
      obtain ⟨hc, hle⟩ := lowerClass_spec hc
      obtain ⟨hrest, hnext, hnodup, hseen⟩ := ih hcs
      refine ⟨.cons (hc.mono hnext) hrest, Nat.le_trans hle hnext, ?_, ?_⟩
      · rw [map_cons, nodup_cons, mem_map]
        refine ⟨?_, hnodup⟩
        rintro ⟨c', hmem, hname⟩
        exact hseen c' hmem (hname ▸ mem_cons_self)
      · intro c' hmem
        rcases mem_cons.1 hmem with rfl | hmem
        · exact hnot
        · exact fun hs => hseen c' hmem (mem_cons_of_mem _ hs)

/-! ## Programs -/

structure Lowered (ast : Ast.Program) (p : Program) : Prop where
  main : ∃ sc sc', lowerMain ast.main sc = .ok p.main sc' ∧ sc'.nextId ≤ p.nextId
  classes : List.Forall₂ (LoweredClass p.nextId) ast.classes p.classes
  nodup_classes : (ast.classes.map (·.name)).Nodup
  types : p.types = .builtin

/-- **What lowering accepts is the code of the program.** -/
theorem lowered_of_ofAst {ast : Ast.Program} {p : Program} (h : Program.ofAst ast = .ok p) :
    Lowered ast p := by
  rw [Program.ofAst] at h
  split at h
  · next program sc' hrun =>
    cases h
    change lowerProgram ast {} = .ok p sc' at hrun
    rw [lowerProgram] at hrun
    obtain ⟨main, sc₁, hmain, hrun⟩ := Build.bind_eq_ok.1 hrun
    obtain ⟨classes, sc₂, hclasses, hrun⟩ := Build.bind_eq_ok.1 hrun
    cases hrun
    obtain ⟨hcs, hle, hnodup, _⟩ := lowerClasses_spec hclasses
    exact ⟨⟨{}, sc₁, hmain, hle⟩, hcs, hnodup, rfl⟩
  · cases h

namespace Lowered

variable {ast : Ast.Program} {p : Program}

section

variable (h : Lowered ast p)
include h

theorem nodup_classNames : (p.classes.map (·.name)).Nodup := by
  rw [map_eq_of_forall₂ h.classes fun _ _ hc => hc.name]
  exact h.nodup_classes

theorem nodup_fieldNames : ∀ c ∈ p.classes, (c.fields.map (·.name)).Nodup := by
  intro c hc
  obtain ⟨decl, _, hclass⟩ := exists_left_of_forall₂ h.classes hc
  rw [hclass.fields, map_map]
  exact hclass.nodup_fields

theorem nodup_methodNames : ∀ c ∈ p.classes, (c.methods.map (·.name)).Nodup := by
  intro c hc
  obtain ⟨decl, _, hclass⟩ := exists_left_of_forall₂ h.classes hc
  have hnames : c.methods.map (·.name) = decl.methods.map (·.name) := by
    refine map_eq_of_forall₂ hclass.methods fun d m hm => ?_
    obtain ⟨_, _, hm, _⟩ := hm
    rw [lowerMethod_head hm]
  exact hnames ▸ hclass.nodup_methods

theorem exists_decl (hc : c ∈ p.classes) (hm : m ∈ c.methods) :
    ∃ cdecl ∈ ast.classes, ∃ decl ∈ cdecl.methods,
      LoweredMethod c.name p.nextId decl m := by
  obtain ⟨cdecl, hcdecl, hclass⟩ := exists_left_of_forall₂ h.classes hc
  obtain ⟨decl, hdecl, hmethod⟩ := exists_left_of_forall₂ hclass.methods hm
  exact ⟨cdecl, hcdecl, decl, hdecl, hclass.name ▸ hmethod⟩

theorem settled (hm : m ∈ p.methods) :
    ∃ sc sc' : Scope, sc'.Settled m.body.labelNames ast.HasLocal ∧
      sc.beginMethod.Appends m.body.labelNames sc' ∧ m.body = sc'.body ∧
        sc'.nextId ≤ p.nextId := by
  rcases mem_cons.1 hm with rfl | hm
  · obtain ⟨sc, sc', hmain, hle⟩ := h.main
    obtain ⟨sc₁, hsc₁, happ, hbody, hn⟩ := lowerMain_settled hmain
    rw [hbody, happ.labelNames_beginMethod]
    exact ⟨sc, sc₁, hsc₁.mono fun _ => False.elim, happ, rfl, hn ▸ hle⟩
  · obtain ⟨c, hc, hm⟩ := mem_flatMap.1 hm
    obtain ⟨cdecl, hcdecl, decl, hdecl, sc, sc', hmethod, hle⟩ := h.exists_decl hc hm
    obtain ⟨sc₁, hsc₁, happ, hbody, hn⟩ := lowerMethod_settled hmethod
    rw [hbody, happ.labelNames_beginMethod]
    refine ⟨sc, sc₁, hsc₁.mono ?_, happ, rfl, hn ▸ hle⟩
    rintro t ⟨d, hd, rfl⟩
    exact ⟨cdecl, hcdecl, decl, hdecl, d, hd, rfl⟩

/-- **All bodies are disciplined.** -/
theorem disciplined : ∀ m ∈ p.methods, m.body.prepare.Disciplined p.nextId := by
  intro m hm
  obtain ⟨sc, sc', hsettled, happ, hbody, hnext⟩ := h.settled hm
  rw [hbody]
  exact hsettled.disciplined happ hnext

theorem plain : ∀ m ∈ p.methods, ∀ s ∈ m.body,
    s.op ≠ .store ∧ s.op ≠ .load ∧ s.pin? = none ∧ s.type? = none := by
  intro m hm
  obtain ⟨sc, sc', hsettled, _, hbody, _⟩ := h.settled hm
  rw [hbody]
  exact hsettled.code.plain

/-- **All bodies are in shape**, their jumps go to labels of their own and their locals have types that
the program declares. -/
theorem shapedInto : ∀ m ∈ p.methods, m.body.ShapedInto m.body.labelNames ast.HasLocal := by
  intro m hm
  obtain ⟨_, _, hsettled, _, hbody, _⟩ := h.settled hm
  exact hbody ▸ hsettled.code.shapedInto

theorem shaped : ∀ m ∈ p.methods, m.body.Shaped := fun m hm =>
  (h.shapedInto m hm).shaped

end

end Lowered

/-! ## Prepared bodies -/

theorem Statement.isShaped_bare_prepared (s : Statement) :
    s.prepared.bare.isShaped = s.isShaped := by
  obtain ⟨_, _, h⟩ := s.prepared_eq
  rw [h]
  by_cases hop : s.op = .assignVar
  · -- The previous value does not matter.
    simp only [bare, isShaped, hop, if_true]
    cases s.left? <;> cases s.right? <;> cases s.payload <;> rfl
  · simp only [bare, isShaped, if_neg hop]

theorem Body.shaped_bare : body.bare.Shaped ↔ body.Shaped := by
  simp only [Shaped, bare, forall_mem_map]
  exact Iff.rfl

theorem Body.shaped_prepare : body.prepare.Shaped ↔ body.Shaped := by
  rw [← shaped_bare]
  simp only [Shaped, bare, prepare_eq, forall_mem_map, Statement.isShaped_bare_prepared]

end Ssa

end MiniJava
