import MiniJava.Proofs.Typing.Expressions

/-!
# Types of lowered statements

The code of a statement passes the check if and only if the statement is well typed. Jumps and labels
are always accepted. So are the ties at the end of an `if` and of a loop: on both paths a local is
bound to a statement of the type that the local was declared with, so a tie has two operands of one
type.
-/

namespace MiniJava

open Ast Ssa TypeContext List

variable {names labels : List String} {P Q : Prop} {id : NodeId} {condition : Expr}

variable {cx : TypeContext} {mx : MethodContext} {Γ Γ' : Context} {sc sc₁ sc₂ sc₃ sc' : Scope}
  {ty ty' : StmtId → Option TypeId}

/-! ## Jumps and joins -/

namespace Ssa.Scope

theorem Fits.emit_label (h : sc.Fits cx mx Γ ty) (l : String) :
    ∃ ty', (sc.emit .label none none (.label l)).2.Fits cx mx Γ ty' ∧ Grows ty ty' :=
  ⟨_, h.emit (show cx.Follows mx ty ⟨sc.nextId, .label, none, none, .label l, none, none, none⟩ .void
    from rfl), h.grows_update .void⟩

theorem Fits.emit_jump_label (h : sc.Fits cx mx Γ ty) (l l' : String) :
    ∃ ty', ((sc.emit .jump none none (.label l)).2.emit .label none none (.label l')).2.Fits
      cx mx Γ ty' ∧ Grows ty ty' := by
  have hjump := h.emit (show cx.Follows mx ty
    ⟨sc.nextId, .jump, none, none, .label l, none, none, none⟩ .void from rfl)
  obtain ⟨ty', hfits, hgrows⟩ := hjump.emit_label l'
  exact ⟨ty', hfits, (h.grows_update .void).trans hgrows⟩

theorem Fits.merges {before left right : String → StmtId} (h : sc.Fits cx mx Γ ty)
    (hm : Merges before left right names sc sc')
    (htyped : ∀ x ∈ names, ∃ d, Γ.local? x = some d ∧ cx.Typed ty (left x) d.type.text ∧ cx.Typed ty (right x) d.type.text) :
    ∃ ty', sc'.Fits cx mx Γ ty' ∧ Grows ty ty' := by
  induction hm generalizing ty with
  | nil sc => exact ⟨ty, h, .refl ty⟩
  | @cons x xs sc sc₁ sc' hstep _ ih =>
    obtain ⟨d, hd, ⟨t, hl, ht⟩, hr⟩ := htyped x mem_cons_self
    have hfollows : cx.Follows mx ty
        ⟨sc.nextId, .unify, some (left x), some (right x), .none, none, none, none⟩ t :=
      ⟨hl, hr.eq_some ht⟩
    have hgrows := h.grows_update t
    have hemit := h.emit hfollows
    have hfits : sc₁.Fits cx mx Γ (Function.update ty sc.nextId (some t)) :=
      hemit.rebound hstep.body hstep.nextId
        (hemit.toBinds.update hd ⟨t, Function.update_self .., ht⟩ hstep.locals)
    obtain ⟨ty', hfits', hgrows'⟩ := ih hfits fun y hy => by
      obtain ⟨d, hd, hl, hr⟩ := htyped y (mem_cons_of_mem _ hy)
      exact ⟨d, hd, hl.mono hgrows, hr.mono hgrows⟩
    exact ⟨ty', hfits', hgrows.trans hgrows'⟩

/-- **Joins are accepted**, since both paths bind locals according to their declarations. -/
theorem Fits.joins {before a b : String → Option StmtId} (h : sc.Fits cx mx Γ ty)
    (hj : Joins names before a b sc sc') (ha : Binds cx Γ a ty) (hb : Binds cx Γ b ty) :
    ∃ ty', sc'.Fits cx mx Γ ty' ∧ Grows ty ty' := by
  obtain ⟨old, left, right, _, hm, hmem, _⟩ := hj
  refine h.merges hm fun x hx => ?_
  obtain ⟨_, hl, hr⟩ := hmem x hx
  obtain ⟨d, hd, hleft⟩ := ha.bound x _ hl
  obtain ⟨d', hd', hright⟩ := hb.bound x _ hr
  obtain rfl := Option.mem_unique hd hd'
  exact ⟨d, hd, hleft, hright⟩

end Ssa.Scope

/-! ## Statements -/

/-- The code up to a scope passes the check if and only if a part of the source is well typed. -/
def AgreesCode (cx : TypeContext) (mx : MethodContext) (Γ : Context) (ty : StmtId → Option TypeId)
    (P : Prop) (sc : Scope) : Prop :=
  sc.Agrees cx mx Γ (fun _ : Unit => P) fun ty' _ => Grows ty ty'

/-- The code that an action emits passes the check if and only if a part of the source is well
typed. -/
def TypesCode (cx : TypeContext) (mx : MethodContext) (Γ : Context) (P : Prop) (x : Build Unit) :
    Prop :=
  ∀ {sc sc' ty}, sc.Fits cx mx Γ ty → x sc = .ok () sc' → AgreesCode cx mx Γ ty P sc'

theorem typesCode_pure : TypesCode cx mx Γ True (pure ()) := by
  intro sc sc' ty hfits h
  obtain ⟨_, rfl⟩ := Build.pure_eq_ok.1 h
  exact hfits.agrees.imp (fun _ _ => ⟨(), trivial, fun ty' hty' => hty' ▸ .refl ty⟩)
    fun _ ty' _ hty' => ⟨(), trivial, hty' ▸ .refl ty⟩

theorem AgreesCode.next (h : AgreesCode cx mx Γ ty P sc₁) (hp : sc₁.body <+: sc'.body)
    (hnext : ∀ ty₁, sc₁.Fits cx mx Γ ty₁ → Grows ty ty₁ → AgreesCode cx mx Γ' ty₁ Q sc') :
    AgreesCode cx mx Γ' ty (P ∧ Q) sc' := by
  refine Scope.Agrees.next (K := fun _ _ => Q) h hp (fun _ => by simp) fun ty₁ _ hfits hgrows => ?_
  exact (hnext ty₁ hfits hgrows).imp
    (fun _ hQ => ⟨(), hQ, fun _ h => hgrows.trans h⟩) fun _ _ hQ h => ⟨(), hQ, hgrows.trans h⟩

theorem AgreesCode.mono (h : AgreesCode cx mx Γ ty' P sc) (hle : Grows ty ty') :
    AgreesCode cx mx Γ ty P sc :=
  Scope.Agrees.imp h (fun _ hP => ⟨(), hP, fun _ h => hle.trans h⟩)
    fun _ _ hP h => ⟨(), hP, hle.trans h⟩

theorem AgreesCode.congr (h : AgreesCode cx mx Γ ty P sc) (hPQ : P ↔ Q) :
    AgreesCode cx mx Γ ty Q sc :=
  propext hPQ ▸ h

theorem AgreesCode.extend (h : AgreesCode cx mx Γ ty P sc₁) (hp : sc₁.body <+: sc'.body)
    (hnext : ∀ ty₁, sc₁.Fits cx mx Γ ty₁ → Grows ty ty₁ → ∃ ty', sc'.Fits cx mx Γ' ty' ∧ Grows ty₁ ty') :
    AgreesCode cx mx Γ' ty P sc' := by
  refine Scope.Agrees.extend h hp fun ty₁ _ hfits hgrows => ?_
  obtain ⟨ty', hfits', hgrows'⟩ := hnext ty₁ hfits hgrows
  exact ⟨ty', hfits', hgrows.trans hgrows'⟩

theorem AgreesExpr.demand {e : Expr} {v : StmtId} {op : Op} {payload : Payload} {σ : String}
    {t : TypeId} (hl : cx.Lawful) (hσ : cx.types.lookup? σ = some t)
    (he : AgreesExpr cx mx Γ ty e v sc₁)
    (hop : ∀ ty' type, cx.Follows mx ty'
      ⟨sc₁.nextId, op, some v, none, payload, none, none, none⟩ type ↔ ty' v = some t ∧ type = .void) :
    AgreesCode cx mx Γ ty (e.HasType Γ σ) (sc₁.emit op (some v) none payload).2 := by
  refine Scope.Agrees.emit he (fun _ hσ' => ⟨σ, hσ', fun ty' hR => ?_⟩)
    fun ty' τ type hτ hR hfollows => ?_
  · refine ⟨.void, (hop ty' .void).2 ⟨hR.2.eq_some hσ, rfl⟩, fun ty'' _ hgrows => ?_⟩
    exact hR.1.trans hgrows
  · obtain ⟨ht, _⟩ := (hop ty' type).1 hfollows
    obtain rfl := hR.2.eq_name hl ht hσ
    exact ⟨(), hτ, fun ty'' _ hgrows => hR.1.trans hgrows⟩

theorem typesCode_branch {thenBranch elseBranch : Build Unit} {labels' : List String} {es es' : List Expr}
    (h : cx.Knowing mx Γ) (ht : TypesCode cx mx Γ P thenBranch)
    (he : TypesCode cx mx Γ Q elseBranch)
    (hte : ∀ {sc sc' : Scope}, thenBranch sc = .ok () sc' → sc.Evolves labels es sc')
    (hee : ∀ {sc sc' : Scope}, elseBranch sc = .ok () sc' → sc.Evolves labels' es' sc') :
    TypesCode cx mx Γ (condition.HasType Γ "boolean" ∧ P ∧ Q)
      (branch id condition thenBranch elseBranch) := by
  intro sc sc' ty hfits hlower
  have hl := h.represents.lawful
  obtain ⟨cond, sc₁, sc₂, sc₃, hc, hthen, helse, hjoin⟩ := branch_cases hlower
  have hev₂ := hte hthen
  have hev₃ := hee helse
  have hbranch := branch_joins hev₂ hev₃ hjoin
  obtain ⟨hpThen, hp₂, _, hp₃, _⟩ :=
    hbranch.parts hev₂.appends.isPrefix hev₃.appends.isPrefix (prefix_refl _)
  obtain ⟨hlocals₂, hlocals₃, hjoins⟩ := hbranch
  have hcond : AgreesCode cx mx Γ ty (condition.HasType Γ "boolean") (sc₁.thenStart id cond) :=
    Scope.Agrees.withShadow ((typesExpr h condition hfits hc).demand hl
      hl.hierarchy.lookup?_boolean fun ty' type => Iff.rfl) (some .empty)
  refine hcond.next hpThen fun ty₁ hfits₁ _ => ?_
  -- Each branch starts with the bindings from before, which still have their types.
  have hbefore : Scope.Binds cx Γ sc₁.locals.find? ty₁ := hfits₁.toBinds
  refine (ht hfits₁ hthen).next hp₂ fun ty₂ hfits₂ hgrows₂ => ?_
  obtain ⟨ty₂', hmid, hgrows₂'⟩ := hfits₂.emit_jump_label (doneLabel id) (elseLabel id)
  have hleave : (sc₂.elseStart id).Fits cx mx Γ ty₂' := by
    refine hmid.rebound rfl rfl ?_
    rw [funext hlocals₂]
    exact hbefore.mono (hgrows₂.trans hgrows₂')
  refine ((he hleave helse).mono hgrows₂').extend hp₃ fun ty₃ hfits₃ hgrows₃ => ?_
  obtain ⟨ty₃', hend, hgrows₃'⟩ := hfits₃.emit_label (doneLabel id)
  have hleave : ((sc₃.elseEnd id).leave sc₁.shadow?).2.Fits cx mx Γ ty₃' := by
    refine hend.rebound rfl rfl ?_
    rw [funext hlocals₃]
    exact hbefore.mono ((hgrows₂.trans hgrows₃).trans hgrows₃')
  obtain ⟨ty', hfits', hgrows'⟩ := hleave.joins hjoins
    (hfits₂.toBinds.mono (hgrows₃.trans hgrows₃')) (hfits₃.toBinds.mono hgrows₃')
  exact ⟨ty', hfits', hgrows₃'.trans hgrows'⟩

theorem typesCode_loop {body : Build Unit} {es : List Expr} (h : cx.Knowing mx Γ) (hb : TypesCode cx mx Γ P body)
    (hbe : ∀ {sc sc' : Scope}, body sc = .ok () sc' → sc.Evolves labels es sc') :
    TypesCode cx mx Γ (condition.HasType Γ "boolean" ∧ P) (loop id condition body) := by
  intro sc sc' ty hfits hlower
  have hl := h.represents.lawful
  obtain ⟨cond, sc₁, sc₂, hc, hbody, rfl⟩ := loop_cases hlower
  have hevc := lowerExpr_evolves hc
  have hev := hbe hbody
  have hjoins := loop_joins hevc hev
  obtain ⟨_, _, hpBody, hp₂, _⟩ :=
    hjoins.parts hevc.appends.isPrefix hev.appends.isPrefix (prefix_refl _)
  obtain ⟨ty₀, hstart, hgrows₀⟩ := (hfits.withShadow (some .empty)).emit_label (startLabel id)
  have hvalue : AgreesExpr cx mx Γ ty₀ condition cond { sc₁ with shadow? := some .empty } :=
    Scope.Agrees.withShadow (typesExpr h condition hstart hc) (some .empty)
  have hcond : AgreesCode cx mx Γ ty₀ (condition.HasType Γ "boolean") (sc₁.bodyStart id cond) :=
    hvalue.demand hl hl.hierarchy.lookup?_boolean fun ty' type => Iff.rfl
  refine (hcond.next hpBody fun ty₁ hfits₁ hgrows₁ => ?_).mono hgrows₀
  refine (hb hfits₁ hbody).extend hp₂ fun ty₂ hfits₂ hgrows₂ => ?_
  obtain ⟨ty₂', hend, hgrows₂'⟩ := hfits₂.emit_jump_label (startLabel id) (endLabel id)
  have hgrows := hgrows₂.trans hgrows₂'
  -- The bindings after the condition are joined with those after the body.
  have hjoin : ∀ {mid : Scope} {outer? : Option Bindings} {names : List String},
      Joins names sc₁.locals.find? sc₁.locals.find? sc₂.locals.find?
        { sc₂.bodyEnd id with shadow? := outer? } mid →
      ∃ ty', mid.Fits cx mx Γ ty' ∧ Grows ty₂' ty' := fun {_ outer? _} hj =>
    (hend.withShadow outer?).joins hj (hfits₁.toBinds.mono hgrows) (hfits₂.toBinds.mono hgrows₂')
  rcases hjoins with ⟨_, hj⟩ | ⟨mid, _, _, _, hj, hj'⟩
  · obtain ⟨ty', hfits', hgrows'⟩ := hjoin hj
    exact ⟨ty', hfits', hgrows₂'.trans hgrows'⟩
  · obtain ⟨ty₃, hmid, hgrows₃⟩ := hjoin hj
    have hbefore : Scope.Binds cx Γ sc.locals.find? ty₃ :=
      hfits.toBinds.mono (((hgrows₀.trans hgrows₁).trans hgrows).trans hgrows₃)
    obtain ⟨ty', hfits', hgrows'⟩ := (hmid.withShadow sc.shadow?).joins hj' hbefore hmid.toBinds
    exact ⟨ty', hfits', (hgrows₂'.trans hgrows₃).trans hgrows'⟩

mutual

/-- **The code of a statement** passes the check if and only if the statement is well typed. -/
theorem typesStmt (h : cx.Knowing mx Γ) : (s : Stmt) → TypesCode cx mx Γ (s.WellTyped Γ) (lowerStmt s)
  | .block stmts => by
    intro hfits hlower
    rw [lowerStmt] at hlower
    refine (typesStmts h stmts hfits hlower).congr ⟨.block, fun hs => ?_⟩
    cases hs with
    | block hs => exact hs
  | .ifThen id condition thenBranch => by
    intro hfits hlower
    rw [lowerStmt] at hlower
    refine (typesCode_branch h (typesStmt h thenBranch) typesCode_pure
      (lowerStmt_evolves thenBranch) pure_evolves hfits hlower).congr ⟨fun hs => ?_, fun hs => ?_⟩
    · exact .ifThen hs.1 hs.2.1
    · cases hs with
      | ifThen hc ht => exact ⟨hc, ht, trivial⟩
  | .ifElse id condition thenBranch elseBranch => by
    intro hfits hlower
    rw [lowerStmt] at hlower
    refine (typesCode_branch h (typesStmt h thenBranch) (typesStmt h elseBranch)
      (lowerStmt_evolves thenBranch) (lowerStmt_evolves elseBranch) hfits hlower).congr
      ⟨fun hs => ?_, fun hs => ?_⟩
    · exact .ifElse hs.1 hs.2.1 hs.2.2
    · cases hs with
      | ifElse hc ht he => exact ⟨hc, ht, he⟩
  | .while id condition body => by
    intro hfits hlower
    rw [lowerStmt] at hlower
    refine (typesCode_loop h (typesStmt h body) (lowerStmt_evolves body) hfits hlower).congr
      ⟨fun hs => ?_, fun hs => ?_⟩
    · exact .loop hs.1 hs.2
    · cases hs with
      | loop hc hb => exact ⟨hc, hb⟩
  | .print value => by
    intro hfits hlower
    have hl := h.represents.lawful
    simp only [lowerStmt, Build.bind_eq_ok, Build.emit_eq_ok, Build.pure_eq_ok] at hlower
    obtain ⟨v, sc₁, hv, _, _, ⟨_, rfl⟩, _, rfl⟩ := hlower
    refine ((typesExpr h value hfits hv).demand hl hl.hierarchy.lookup?_int
      fun ty' type => Iff.rfl).congr ⟨.print, fun hs => ?_⟩
    cases hs with
    | print hv => exact hv
  | .expr value => by
    intro hfits hlower
    simp only [lowerStmt, Build.bind_eq_ok, Build.pure_eq_ok] at hlower
    obtain ⟨v, sc₁, hv, _, rfl⟩ := hlower
    refine Scope.Agrees.imp (typesExpr h value hfits hv) (fun _ hs => ?_) fun τ ty' hτ hR =>
      ⟨(), .expr hτ, hR.1⟩
    cases hs with
    | expr hv => exact ⟨_, hv, fun _ hR => hR.1⟩

theorem typesStmts (h : cx.Knowing mx Γ) :
    (ss : List Stmt) → TypesCode cx mx Γ (∀ s ∈ ss, s.WellTyped Γ) (lowerStmts ss)
  | [] => by
    intro hfits hlower
    rw [lowerStmts] at hlower
    exact (typesCode_pure hfits hlower).congr (by simp)
  | s :: ss => by
    intro hfits hlower
    rw [lowerStmts] at hlower
    obtain ⟨_, sc₁, hs, hss⟩ := Build.bind_eq_ok.1 hlower
    refine ((typesStmt h s hfits hs).next (lowerStmts_evolves ss hss).appends.isPrefix
      fun ty₁ hfits₁ _ => typesStmts h ss hfits₁ hss).congr ?_
    rw [forall_mem_cons]

end

end MiniJava
