import MiniJava.Proofs.Typing.Statements

/-!
# The check and the rules of the source

A lowered program passes the check if and only if its syntax tree is well typed. Before the body of a
method, lowering declares the parameters and the locals one after the other, so what names mean grows
until all of them are known; a local whose type does not exist stops the check there.
-/

namespace MiniJava

open Ast Ssa TypeContext List

variable {cx : TypeContext} {mx : MethodContext} {Γ : Context} {sc sc' : Scope}
  {ty : StmtId → Option TypeId}

/-! ## Declarations -/

section Declarations

variable {done params decls : List VarDecl} {d : VarDecl} {ids : List StmtId}

theorem Ast.Context.local?_append (Γ : Context) (done : List VarDecl) (d : VarDecl) (x : String) :
    Context.local? { Γ with locals := done ++ [d] } x =
      (Context.local? { Γ with locals := done } x).or (if x = d.name then some d else none) := by
  rw [local?, local?, find?_append, find?_singleton]
  simp only [beq_iff_eq, eq_comm (a := x)]

theorem Ast.Context.local?_append_of_eq_some {x : String} (params : List VarDecl)
    (h : Context.local? { Γ with locals := done } x = some d) :
    Context.local? { Γ with locals := done ++ params } x = some d := by
  rw [local?, find?_append]
  exact Option.or_eq_some_iff.2 (Or.inl h)

theorem Ssa.Scope.Fits.declare {v : StmtId} (h : sc.Fits cx mx { Γ with locals := done } ty)
    (hnone : sc.locals.find? d.name = none) (hv : cx.Typed ty v d.type.text) :
    Scope.Fits cx mx { Γ with locals := done ++ [d] }
      { sc with locals := sc.locals.insert d.name v } ty := by
  refine ⟨⟨fun x w hx => ?_, fun x hx => ?_⟩, h.accepts, h.bounded⟩
  · rw [Bindings.find?_insert] at hx
    split at hx
    · next heq =>
      cases hx
      refine ⟨d, ?_, hv⟩
      rw [Context.local?_append, h.unbound x (heq ▸ hnone), if_pos heq]
      rfl
    · obtain ⟨d', hd', hw⟩ := h.bound x w hx
      exact ⟨d', Context.local?_append_of_eq_some [d] hd', hw⟩
  · rw [Bindings.find?_insert] at hx
    split at hx
    · cases hx
    · next hne =>
      rw [Context.local?_append, h.unbound x hx, if_neg hne]
      rfl

theorem fits_beginMethod (sc : Scope) (h : Γ.locals = []) :
    sc.beginMethod.Fits cx mx Γ fun _ => none where
  bound := by simp [Scope.beginMethod]
  unbound := by simp [Context.local?, h]
  accepts := accepts_nil
  bounded := by simp [Scope.beginMethod]

/-- **The code before the body of a method** is accepted if and only if the types of the locals exist.
The parameters have the types of the method, and their copies have the types of the parameters. -/
theorem Ssa.Opens.agrees {sc₀ : Scope} {ps ls : List VarDecl} {k : Nat} (h : Opens sc₀ ps k ls sc)
    (hrep : cx.Represents Γ.program)
    (hparams : ∀ (j : Nat) (d : VarDecl), ps[j]? = some d →
      ∃ t, mx.params[j]? = some t ∧ cx.types.lookup? d.type.text = some t) :
    AgreesCode cx mx { Γ with locals := ps ++ ls } (fun _ => none)
      (∀ d ∈ ls, Γ.program.IsType d.type.text) sc := by
  induction h with
  | start => exact (typesCode_pure (fits_beginMethod sc₀ rfl) rfl).congr (by simp)
  | @parameter ps sc d h hnone ih =>
    obtain ⟨t, hposition, ht⟩ := hparams ps.length d getElem?_concat_length
    have hfirst := ih fun j d' hj => hparams j d' (by
      rwa [getElem?_append_left (lt_of_getElem? hj)])
    rw [append_nil] at hfirst ⊢
    refine hfirst.extend (prefix_append ..) fun ty hfits _ => ?_
    have hfollows : cx.Follows mx ty ⟨sc.nextId, .parameter, none, none, .position ps.length, none,
        none, none⟩ t := hposition
    exact ⟨_, (hfits.emit hfollows).declare hnone ⟨t, Function.update_self .., ht⟩,
      hfits.grows_update t⟩
  | @copy ps k sc d h hd ih =>
    refine (ih hparams).extend (prefix_append ..) fun ty hfits _ => ?_
    obtain ⟨d', hd', t, hv, ht⟩ := hfits.bound d.name _ (h.bindings.2.2 k d (Nat.le_refl k) hd)
    have hfollows : cx.Follows mx ty ⟨sc.nextId, .assignVar, some (sc₀.nextId + k),
        some (sc₀.nextId + k), .name d.name, none, none, none⟩ t :=
      ⟨hv, t, hv, TypeTable.Hierarchy.isSubtype_refl _ t⟩
    have hemit := hfits.emit hfollows
    exact ⟨_, hemit.rebound rfl rfl (hemit.toBinds.update hd' ⟨t, Function.update_self .., ht⟩ fun y =>
      Bindings.find?_insert ..), hfits.grows_update t⟩
  | @declare ps ls sc d h hnone ih =>
    have hprefix : sc.body <+: (sc.emitBound d.name .null none (.type d.type)).body :=
      prefix_append ..
    refine AgreesCode.congr (P := (∀ d ∈ ls, Γ.program.IsType d.type.text) ∧
      Γ.program.IsType d.type.text) ?_ (by simp [or_imp, forall_and])
    refine (ih hparams).next hprefix fun ty hfits _ => ?_
    have hnull : (sc.emit .null none none (.type d.type)).2.Agrees cx mx { Γ with locals := ps ++ ls }
        (fun _ : Unit => Γ.program.IsType d.type.text)
        fun ty' _ => Grows ty ty' ∧ cx.Typed ty' sc.nextId d.type.text := by
      refine hfits.agrees.emit (fun _ htype => ⟨(), trivial, ?_⟩) ?_
      · rintro ty' rfl
        obtain ⟨t, ht⟩ := hrep.isType_iff.1 htype
        exact ⟨t, ⟨d.type, rfl, TypeTable.resolve_eq_ok.2 ht⟩,
          fun ty'' hty'' hgrows => ⟨hgrows, t, hty'', ht⟩⟩
      · rintro ty' _ t _ rfl ⟨_, ⟨⟩, ht⟩
        have ht := TypeTable.resolve_eq_ok.1 ht
        exact ⟨(), hrep.isType_iff.2 ⟨t, ht⟩, fun ty'' hty'' hgrows => ⟨hgrows, t, hty'', ht⟩⟩
    rw [← append_assoc]
    exact hnull.extend prefix_rfl fun ty' _ hfits' hR => ⟨ty', hfits'.declare hnone hR.2, hR.1⟩

end Declarations

/-! ## Methods -/

theorem AgreesCode.exists_accepts_iff {P : Prop} (h : AgreesCode cx mx Γ ty P sc) :
    (∃ ty', cx.Accepts mx sc.body ty') ↔ P := by
  constructor
  · rintro ⟨ty', hty'⟩
    obtain ⟨_, _, hP, _⟩ := h.sound ty' hty'
    exact hP
  · intro hP
    obtain ⟨ty', hfits, _⟩ := h.complete () hP
    exact ⟨ty', hfits.accepts⟩

theorem AgreesExpr.ret {e : Expr} {v : StmtId} {σ : String} {t : TypeId}
    (hrep : cx.Represents Γ.program) (hreturn : mx.returnType? = some t)
    (hσ : cx.types.lookup? σ = some t) (he : AgreesExpr cx mx Γ ty e v sc) :
    AgreesCode cx mx Γ ty (∃ τ, e.HasType Γ τ ∧ Γ.program.Subtype τ σ)
      (sc.emit .ret (some v) none .none).2 := by
  refine Scope.Agrees.emit he ?_ ?_
  · rintro _ ⟨τ, hτ, hsub⟩
    refine ⟨τ, hτ, fun ty' hR => ?_⟩
    obtain ⟨hgrows, t', ht', hτ'⟩ := hR
    refine ⟨.void, ⟨⟨t', ht', ?_⟩, rfl⟩, fun ty'' _ h => hgrows.trans h⟩
    rw [hreturn]
    exact (hrep.isSubtype_iff hτ' hσ).2 hsub
  · rintro ty' τ _ hτ ⟨hgrows, htyped⟩ ⟨⟨t', ht', hsub⟩, _⟩
    rw [hreturn] at hsub
    refine ⟨(), ⟨τ, hτ, ?_⟩, fun ty'' _ h => hgrows.trans h⟩
    exact (hrep.isSubtype_iff (htyped.lookup?_eq ht') hσ).1 hsub

variable {ast : Ast.Program}

/-- **The code of a method** passes the check if and only if the method is well typed. -/
theorem agrees_method {decl : ClassDecl} {m : MethodDecl} {method : Method}
    (hrep : cx.Represents ast) (hdecl : decl ∈ ast.classes)
    (hlower : lowerMethod decl.name m sc = .ok method sc')
    (hthis : mx.this? = cx.types.lookup? decl.name)
    (hparams : List.Forall₂ (fun d t => cx.types.lookup? d.type.text = some t) m.params mx.params)
    (hresult : ∃ t, mx.returnType? = some t ∧ cx.types.lookup? m.returnType.text = some t) :
    (∃ ty, cx.Accepts mx method.body ty) ↔ m.WellTyped ast decl.name := by
  have h : cx.Knowing mx (m.context ast decl.name) :=
    ⟨hrep, hthis, fun owner howner => ⟨decl, hdecl, Option.some.inj howner⟩⟩
  obtain ⟨t, hreturn, ht⟩ := hresult
  obtain ⟨sc₁, sc₂, result, sc₃, _, hopens, h₂, h₃, hbody, _⟩ := lowerMethod_cases hlower
  have hlocals : AgreesCode cx mx (m.context ast decl.name) (fun _ => none)
      (∀ d ∈ m.locals, ast.IsType d.type.text) sc₁ := by
    refine hopens.agrees (Γ := m.context ast decl.name) hrep fun j d hj => ?_
    obtain ⟨hlt, rfl⟩ := List.getElem?_eq_some_iff.1 hj
    have hlt' : j < mx.params.length := hparams.length_eq ▸ hlt
    exact ⟨_, getElem?_eq_getElem hlt', hparams.get hlt hlt'⟩
  have hp₃ : sc₂.body <+: (sc₃.emit .ret (some result) none .none).2.body :=
    (lowerExpr_evolves h₃).appends.isPrefix.trans (prefix_append ..)
  have hmethod := hlocals.next ((lowerStmts_evolves m.body h₂).appends.isPrefix.trans hp₃)
    fun ty₁ hfits₁ _ => (typesStmts h m.body hfits₁ h₂).next hp₃
      fun ty₂ hfits₂ _ => (typesExpr h m.result hfits₂ h₃).ret hrep hreturn ht
  rw [hbody, hmethod.exists_accepts_iff]
  exact ⟨fun ⟨hl, hs, hr⟩ => ⟨hl, hs, hr⟩, fun hw => ⟨hw.locals, hw.body, hw.result⟩⟩

/-- **The code of an entry point** passes the check if and only if its body is well typed. -/
theorem agrees_main {method : Method} (hrep : cx.Represents ast)
    (hlower : lowerMain ast.main sc = .ok method sc') (hthis : mx.this? = none) :
    (∃ ty, cx.Accepts mx method.body ty) ↔ ast.main.body.WellTyped ast.mainContext := by
  have h : cx.Knowing mx ast.mainContext := ⟨hrep, hthis, fun owner howner => nomatch howner⟩
  obtain ⟨sc₁, h₁, hbody, _⟩ := lowerMain_cases hlower
  rw [hbody]
  exact (typesStmt h ast.main.body (fits_beginMethod sc rfl) h₁).exists_accepts_iff

/-! ## Programs -/

theorem exists_checkMethod_iff {m : Method} : (∃ m', cx.checkMethod m = (m', .ok ())) ↔
    ∃ ty, cx.Accepts (cx.methodContext m) m.body ty := by
  simp only [checkMethod_eq_ok, Accepts]
  constructor
  · rintro ⟨_, body', typed, hsweep, _⟩
    exact ⟨_, body', typed, hsweep, rfl⟩
  · rintro ⟨_, body', typed, hsweep, _⟩
    exact ⟨_, body', typed, hsweep, rfl⟩

/-- **What passes the check**: declarations that make sense and methods that are accepted. -/
theorem Ssa.Program.check_eq_ok_iff {p : Ssa.Program} : p.check.2 = .ok () ↔
    ∃ cx, p.typeContext = .ok cx ∧ ∀ m ∈ Ssa.Program.methods { p with classes := cx.classes },
      ∃ ty, cx.Accepts (cx.methodContext m) m.body ty := by
  constructor
  · intro h
    obtain ⟨cx, hchecked⟩ := checked_of_check (show p.check = (p.check.1, .ok ()) from Prod.ext rfl h)
    refine ⟨cx, hchecked.context, fun m hm => exists_checkMethod_iff.1 ?_⟩
    obtain ⟨m', _, hm'⟩ := exists_right_of_forall₂ hchecked.code.methods hm
    exact ⟨m', hm'⟩
  · rintro ⟨cx, hcx, haccepts⟩
    obtain ⟨q, _, hsweep, _⟩ := Program.exists_sweep_ok (I := fun _ : Unit => True)
      (f := fun _ => cx.checkMethod) (s := ()) trivial fun _ m hm _ => by
        obtain ⟨m', hm'⟩ := exists_checkMethod_iff.2 (haccepts m hm)
        exact ⟨m', (), hm', trivial⟩
    rw [check, hcx]
    simp only [hsweep]

theorem forall_mem_iff_of_forall₂ {α β : Type} {P : α → Prop} {Q : β → Prop} {as : List α}
    {bs : List β} (h : List.Forall₂ (fun a b => P a ↔ Q b) as bs) :
    (∀ a ∈ as, P a) ↔ ∀ b ∈ bs, Q b := by
  induction h with
  | nil => simp
  | cons hab _ ih => rw [forall_mem_cons, forall_mem_cons, hab, ih]

theorem Ssa.Lowered.accepts_iff {p : Ssa.Program} (h : Lowered ast p) (hcx : p.typeContext = .ok cx) :
    (∀ m ∈ Ssa.Program.methods { p with classes := cx.classes },
      ∃ ty, cx.Accepts (cx.methodContext m) m.body ty) ↔
    ast.main.body.WellTyped ast.mainContext ∧
      ∀ decl ∈ ast.classes, ∀ m ∈ decl.methods, m.WellTyped ast decl.name := by
  have hrep := h.represents hcx
  obtain ⟨sc, sc', hmain, _⟩ := h.main
  have hmain : (∃ ty, cx.Accepts (cx.methodContext p.main) p.main.body ty) ↔
      ast.main.body.WellTyped ast.mainContext := by
    refine agrees_main hrep hmain ?_
    rw [lowerMain_head hmain]
    rfl
  have hclasses : List.Forall₂ (fun decl c => (∀ m ∈ decl.methods, m.WellTyped ast decl.name) ↔
      ∀ m ∈ c.methods, ∃ ty, cx.Accepts (cx.methodContext m) m.body ty) ast.classes cx.classes := by
    have hlowered : List.Forall₂ (fun decl c => decl ∈ ast.classes ∧ LoweredClass p.nextId decl c)
        ast.classes p.classes := forall₂_imp_mem h.classes fun decl hdecl c hc => ⟨hdecl, hc⟩
    refine forall₂_trans hlowered (Program.typeContext_eq_ok.1 hcx).2 fun decl c c' hc hc' => ?_
    obtain ⟨_, methods, _, hmethods, rfl⟩ := ClassDef.resolve_eq_ok.1 hc'
    refine forall_mem_iff_of_forall₂ (forall₂_trans hc.2.methods hmethods fun d m m' hm hm' => ?_)
    have hmethod := hm.represents hm'
    obtain ⟨_, _, _, _, rfl⟩ := Method.resolve_eq_ok.1 hm'
    obtain ⟨sc, sc', hlower, _⟩ := hm
    refine (agrees_method hrep hc.1 hlower ?_ hmethod.params hmethod.result).symm
    rw [lowerMethod_head hlower]
    rfl
  change (∀ m ∈ p.main :: cx.classes.flatMap (·.methods), _) ↔ _
  rw [forall_mem_cons, hmain, forall_mem_iff_of_forall₂ hclasses]
  simp only [mem_flatMap, forall_exists_index, and_imp]
  exact and_congr_right fun _ => ⟨fun h c hc m hm => h m c hc hm, fun h m c hc hm => h c hc m hm⟩

/-- **Checking a lowered program is checking its syntax tree.** A program that was lowered passes the
check if and only if its syntax tree is well typed. -/
theorem check_iff_wellTyped (ast : Ast.Program) (p : Ssa.Program) (h : Program.ofAst ast = .ok p) :
    p.check.2 = .ok () ↔ ast.WellTyped := by
  have hlow := lowered_of_ofAst h
  rw [Program.check_eq_ok_iff]
  constructor
  · rintro ⟨cx, hcx, haccepts⟩
    have hdecls := hlow.exists_typeContext_iff.1 ⟨cx, hcx⟩
    obtain ⟨hmain, hmethods⟩ := (hlow.accepts_iff hcx).1 haccepts
    exact ⟨fun c hc => (hdecls c hc).1, fun c hc => (hdecls c hc).2.1,
      fun c hc => (hdecls c hc).2.2, hmethods, hmain⟩
  · intro hw
    obtain ⟨cx, hcx⟩ := hlow.exists_typeContext_iff.2 fun c hc =>
      ⟨hw.names c hc, hw.chains c hc, hw.types c hc⟩
    exact ⟨cx, hcx, (hlow.accepts_iff hcx).2 ⟨hw.main, hw.methods⟩⟩

/-- Two classes and an assignment to a target:

    class Main { public static void main(String[] a) { System.out.println(new B().up(new A())); } }
    class A {
      int n;
      int[] a;
      public int up(A other) {
        int i;
        i = a.length;
        while (i < other.up(this)) target = i = i + 1;
        return n;
      }
    }
    class B extends A { } -/
def counters (target : Expr) : Ast.Program where
  main := ⟨"Main", .print (.call (.newObject "B") "up" [.newObject "A"])⟩
  classes := [
    { name := "A", parent? := none, fields := [⟨.int, "n"⟩, ⟨.intArray, "a"⟩]
      methods := [{
        returnType := .int, name := "up", params := [⟨.named "A", "other"⟩], locals := [⟨.int, "i"⟩]
        body := [.expr (.assign (.var "i") (.member (.var "a") "length")),
          .while 0 (.binary .lt (.var "i") (.call (.var "other") "up" [.this]))
            (.expr (.assign target (.assign (.var "i") (.binary .add (.var "i") (.intLit 1)))))]
        result := .var "n" }] },
    ⟨"B", some "A", [], []⟩]

theorem check_iff_wellTyped_counters :
    (∃ p, Program.ofAst (counters (.var "n")) = .ok p ∧ p.check.2 = .ok () ∧
      (counters (.var "n")).WellTyped) ∧
    ∃ p, Program.ofAst (counters (.member (.var "a") "length")) = .ok p ∧ p.check.2 ≠ .ok () ∧
      ¬ (counters (.member (.var "a") "length")).WellTyped := by
  constructor
  · obtain ⟨p, hp⟩ : ∃ p, Program.ofAst (counters (.var "n")) = .ok p :=
      exists_eq_ok_of_isOk (by decide +kernel)
    have hcheck : (Program.ofAst (counters (.var "n"))).toOption.map (·.check.2.isOk) = some true := by
      decide +kernel
    rw [hp] at hcheck
    obtain ⟨_, hok⟩ := exists_eq_ok_of_isOk (Option.some.inj hcheck)
    exact ⟨p, hp, hok, (check_iff_wellTyped _ p hp).1 hok⟩
  · obtain ⟨p, hp⟩ : ∃ p, Program.ofAst (counters (.member (.var "a") "length")) = .ok p :=
      exists_eq_ok_of_isOk (by decide +kernel)
    have hcheck : (Program.ofAst (counters (.member (.var "a") "length"))).toOption.map
        (·.check.2.isOk) = some false := by
      decide +kernel
    rw [hp] at hcheck
    have hne : p.check.2 ≠ .ok () := by
      intro hok
      rw [Except.toOption, Option.map_some, hok] at hcheck
      cases hcheck
    exact ⟨p, hp, hne, fun hw => hne ((check_iff_wellTyped _ p hp).2 hw)⟩

end MiniJava
