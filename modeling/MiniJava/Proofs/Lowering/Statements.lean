import MiniJava.Proofs.Lowering.Expressions

/-!
# The meaning of the code of statements

Running the code of a statement executes the statement. At a join both paths arrive with different
statements bound to a local, but these have one cell, so the values agree with the bindings after the
join. A loop arrives at its start with the bindings from before it, for the same reason.
-/

namespace MiniJava

open Ast List

variable {env : Env} {eff eff' : Eval Unit} {es es' : List Expr}

namespace Ssa

variable {names labels labels' : List String} {base : Nat} {act : Activation} {own own₁ own' : Owners}
  {sc sc₁ sc₂ sc₃ sc' : Scope} {M : Machine Nat} {σ : Store Nat} {id : NodeId} {condition : Expr}
  {cond : StmtId}

/-! ## Cells of locals -/

theorem Agrees.of_sameCells (h : Agrees M sc env σ)
    (hs : SameCells M.place? sc.locals.find? sc'.locals.find?) : Agrees M sc' env σ := by
  intro x
  have hx := h x
  have hsx := hs x
  revert hx hsx
  cases sc.locals.find? x <;> cases sc'.locals.find? x <;> intro hx hsx
  · exact hx
  · cases hsx
  · cases hsx
  · obtain ⟨v, hv, hread⟩ := hx
    refine ⟨v, hv, ?_⟩
    rw [← hread, Machine.read?, Machine.read?, Option.some.inj hsx]

/-! ## Code that goes on -/

structure Extends (sc : Scope) (own : Owners) (sc' : Scope) (own' : Owners) : Prop where
  isPrefix : sc.body <+: sc'.body
  nextId_le : sc.nextId ≤ sc'.nextId
  agree : AgreeBelow sc.nextId own own'

namespace Extends

theorem of_appends (h : sc.Appends labels sc')
    (ha : AgreeBelow sc.nextId own own') : Extends sc own sc' own' :=
  ⟨h.isPrefix, h.nextId_le, ha⟩

theorem trans (h : Extends sc own sc₁ own₁) (h' : Extends sc₁ own₁ sc' own') :
    Extends sc own sc' own' :=
  ⟨h.isPrefix.trans h'.isPrefix, Nat.le_trans h.nextId_le h'.nextId_le,
    h.agree.trans h'.agree h.nextId_le⟩

theorem with_shadow {shadow? : Option Bindings} (h : Extends { sc with shadow? } own sc' own') :
    Extends sc own sc' own' :=
  ⟨h.isPrefix, h.nextId_le, h.agree⟩

end Extends

theorem Emits.extends {assigned : String → Prop} (h : Emits names base assigned sc own sc' own') :
    Extends sc own sc' own' :=
  .of_appends h.appends h.agree

theorem Completes.of_extends (h : Completes names base act sc' own₁ M own') (he : Extends sc own sc' own₁) :
    Completes names base act sc own M own' :=
  ⟨h.machine, h.activation, he.isPrefix.trans h.isPrefix, he.agree.trans h.agree he.nextId_le⟩

theorem Scope.Owned.emit_unowned (h : sc.Owned names base own) (op : Op) (left? right? : Option StmtId) (payload : Payload)
    (hop : op.isMerge = false) :
    (sc.emit op left? right? payload).2.Owned names base (own.set sc.nextId none) ∧
      Extends sc own (sc.emit op left? right? payload).2 (own.set sc.nextId none) :=
  ⟨h.emit _ _ _ hop (by simp) (by simp), prefix_append .., Nat.le_succ _, .set _ _ _⟩

theorem Scope.Owned.with_shadow (h : sc.Owned names base own) (shadow? : Option Bindings) :
    Scope.Owned names base own { sc with shadow? } :=
  ⟨h.body, h.next, h.bound⟩

theorem Scope.Owned.back (h : sc.Owned names base own) (hx : Extends sc own sc₁ own₁)
    (h₁ : sc₁.Owned names base own₁) (hl : ∀ x, sc'.locals.find? x = sc.locals.find? x)
    (hb : sc'.body = sc₁.body) (hn : sc'.nextId = sc₁.nextId) : sc'.Owned names base own₁ :=
  (h.congr hx.agree).of_earlier (hb ▸ hx.isPrefix) (hb ▸ h₁.body) (by rw [hb, hn, h₁.next]) hl

theorem Scope.Owned.bound_of_extends (h : sc.Owned names base own) (hx : Extends sc own sc' own') :
    OwnedBindings own' sc'.body sc.locals.find? :=
  h.bound.mono hx.isPrefix fun _ hs => hx.agree _ (h.id_lt hs)

/-! ## Control flow -/

section Control

variable {budget : Nat} {l : String}

theorem run_label (hp : (sc.emit .label none none (.label l)).2.body <+: M.code) :
    M.run budget sc.body.length σ =
      M.run budget (sc.emit .label none none (.label l)).2.body.length σ := by
  have hs := Scope.getElem?_of_emit hp
  have hperform : perform M.activation .label (.label l) [] =
      (pure () : Effect Unit) >>= fun _ => pure .nothing := rfl
  rw [Machine.run_of_nothing hs rfl hperform, pure_bind, Scope.body_emit, length_append]
  rfl

theorem run_unify {added : Body} (hb : sc'.body = sc.body ++ added)
    (hu : ∀ s ∈ added, s.op = .unify) (hp : sc'.body <+: M.code) :
    M.run budget sc.body.length σ = M.run budget sc'.body.length σ := by
  have hskip : ∀ (rest pre : Body), (∀ s ∈ rest, s.op = .unify) → pre ++ rest <+: M.code →
      M.run budget pre.length σ = M.run budget (pre ++ rest).length σ := by
    intro rest
    induction rest with
    | nil => simp
    | cons s rest ih =>
      intro pre hu hp
      have hs : M.code[pre.length]? = some s := by
        obtain ⟨tail, hcode⟩ := hp
        rw [← hcode, append_assoc]
        simp
      have hop : s.op = .unify := hu s mem_cons_self
      have hreads : s.reads.mapM (M.read? σ) = some [] := by
        simp [Statement.reads, Statement.uses, hop, Op.isMerge]
      have hperform : perform M.activation s.op s.payload [] =
          (pure () : Effect Unit) >>= fun _ => pure .nothing := by
        rw [hop]
        rfl
      have hrest := ih (pre ++ [s]) (fun t ht => hu t (mem_cons_of_mem _ ht)) (by simpa using hp)
      rw [Machine.run_of_nothing hs hreads hperform, pure_bind]
      simpa using hrest
  rw [hb] at hp ⊢
  exact hskip added sc.body hu hp

/-- Running the code between two scopes does what a computation does, and then goes on from the end
of the code. -/
def Executes (M : Machine Nat) (sc sc' : Scope) (eff : Eval Unit) : Prop :=
  ∀ (env : Env) (σ : Store Nat) (K : Env → Effect Value), Agrees M sc env σ →
    (∀ env' σ', Agrees M sc' env' σ' → env'.budget ≤ env.budget →
      M.run env'.budget sc'.body.length σ' = K env') →
    M.run env.budget sc.body.length σ = eff.run env >>= fun r => K r.2

theorem Executes.refl (M : Machine Nat) (sc : Scope) : Executes M sc sc (pure ()) := by
  intro env σ K hag hk
  simpa using hk env σ hag (Nat.le_refl _)

theorem Executes.seq (h : Executes M sc sc₁ eff) (h' : Executes M sc₁ sc' eff') :
    Executes M sc sc' (do eff; eff') := by
  intro env σ K hag hk
  have heq : ((do eff; eff' : Eval Unit).run env >>= fun r => K r.2) =
      eff.run env >>= fun r => eff'.run r.2 >>= fun r => K r.2 := by
    simp
  rw [heq]
  refine h env σ (fun env₁ => eff'.run env₁ >>= fun r => K r.2) hag fun env₁ σ₁ hag₁ hle => ?_
  exact h' env₁ σ₁ K hag₁ fun env₂ σ₂ hag₂ hle' => hk env₂ σ₂ hag₂ (Nat.le_trans hle' hle)

/-- The code that an action emits executes a computation, as long as the operands of the expressions
`es` keep their values. -/
structure SoundStmt (names : List String) (act : Activation) (action : Build Unit)
    (labels : List String) (es : List Expr) (eff : Eval Unit) : Prop where
  evolves : ∀ {sc sc' : Scope}, action sc = .ok () sc' → sc.Evolves labels es sc'
  executes : ∀ {base : Nat} {own : Owners} {sc sc' : Scope}, sc.Owned names base own →
    action sc = .ok () sc' →
    ∃ own', sc'.Owned names base own' ∧ AgreeBelow sc.nextId own own' ∧
      ∀ M ownF, Completes names base act sc' own' M ownF → M.code.labelNames.Nodup →
        (∀ e ∈ es, e.KeepsOperands names) ∨ ¬ M.code.ReadsOverwritten → Executes M sc sc' eff

theorem run_condition {target : Nat}
    (hc : Computes M own sc sc₁ (evalExpr act condition) fun σ v => M.read? σ cond = some v)
    (hp : (sc₁.emit .branchUnless (some cond) none (.label l)).2.body <+: M.code)
    (hl : M.code.labelPosition? l = some target) (hlt : sc₁.body.length < target)
    (hag : Agrees M sc env σ) {K : Bool → Env → Effect Value}
    (hfalse : ∀ env' σ', Agrees M sc₁ env' σ' → env'.budget = env.budget → M.run env'.budget target σ' = K false env')
    (htrue : ∀ env' σ', Agrees M sc₁ env' σ' → env'.budget = env.budget → M.run env'.budget (sc₁.body.length + 1) σ' = K true env') :
    M.run env.budget sc.body.length σ =
      (evalCondition act condition).run env >>= fun r => K r.1 r.2 := by
  have heq : ((evalCondition act condition).run env >>= fun r => K r.1 r.2) =
      (evalExpr act condition).run env >>= fun r => r.1.toBool >>= fun b => K b r.2 := by
    simp [evalCondition]
  rw [heq]
  refine hc env σ (fun v env₁ => v.toBool >>= fun b => K b env₁) hag
    fun v env₁ σ₁ hag₁ _ hv hb => ?_
  have hs := Scope.getElem?_of_emit hp
  have hreads : (Statement.reads ⟨sc₁.nextId, .branchUnless, some cond, none, .label l, none, none,
      none⟩).mapM (M.read? σ₁) = some [v] := by
    simp [Statement.reads, Statement.uses, Statement.operands, Statement.payloadOperands, Op.isMerge,
      hv]
  rw [Machine.run_of_branch hs hreads rfl hl hlt]
  refine congrArg (v.toBool >>= ·) (funext fun b => ?_)
  cases b with
  | false => exact hfalse env₁ σ₁ hag₁ hb
  | true => exact htrue env₁ σ₁ hag₁ hb

end Control

/-! ## Branches -/

section Branch

variable {thenEff elseEff : Eval Unit}

theorem branch_executes (hM : CellMachine names base own M) (hd : M.code.labelNames.Nodup)
    (hc : Computes M own sc sc₁ (evalExpr act condition) fun σ v => M.read? σ cond = some v)
    (ht : (sc₁.thenStart id cond).Evolves labels es sc₂)
    (htrun : Executes M (sc₁.thenStart id cond) sc₂ thenEff)
    (he : (sc₂.elseStart id).Evolves labels' es' sc₃)
    (herun : Executes M (sc₂.elseStart id) sc₃ elseEff)
    (hbranch : BranchJoins id sc₁ sc₂ sc₃ sc') (hp : sc'.body <+: M.code) :
    Executes M sc sc' (do if ← evalCondition act condition then thenEff else elseEff) := by
  obtain ⟨hpThen, _, hpElse, _, hpDone⟩ :=
    hbranch.parts ht.appends.isPrefix he.appends.isPrefix hp
  obtain ⟨hlocals, _, hj⟩ := hbranch
  obtain ⟨hsame, hsame'⟩ := hj.sameCells hM.code.tied hp
  rw [← hM.place] at hsame hsame'
  obtain ⟨added, hadded, hunify⟩ := hj.exists_code
  have helse : M.code.labelPosition? (elseLabel id) = some (sc₂.body.length + 1) := by
    have := Scope.labelPosition?_of_emit hd hpElse
    simpa using this
  have hdone : M.code.labelPosition? (doneLabel id) = some sc₃.body.length :=
    Scope.labelPosition?_of_emit hd hpDone
  -- The positions follow each other: condition, branch, label, branch, label.
  have hlenThen := sc₁.length_thenStart id cond ▸ ht.appends.isPrefix.length_le
  have hlenElse := sc₂.length_elseStart id ▸ he.appends.isPrefix.length_le
  have hend : ∀ budget σ, M.run budget sc₃.body.length σ = M.run budget sc'.body.length σ :=
    fun budget σ => (run_label hpDone).trans (run_unify hadded hunify hp)
  intro env σ K hag hk
  have heq : ((do if ← evalCondition act condition then thenEff else elseEff : Eval Unit).run env >>=
      fun r => K r.2) = (evalCondition act condition).run env >>= fun r =>
        (if r.1 then thenEff else elseEff).run r.2 >>= fun r => K r.2 := by
    simp
  rw [heq]
  refine run_condition (K := fun b env' => (if b then thenEff else elseEff).run env' >>= fun r => K r.2)
    hc hpThen helse (by omega) hag (fun env₁ σ₁ hag₁ hb => ?_) fun env₁ σ₁ hag₁ hb => ?_
  · have hlabel : M.run env₁.budget (sc₂.body.length + 1) σ₁ =
        M.run env₁.budget (sc₂.thenEnd id).body.length σ₁ := by
      have hlen : sc₂.body.length + 1 =
          (sc₂.emit .jump none none (.label (doneLabel id))).2.body.length := by
        simp
      rw [hlen]
      exact run_label hpElse
    have hag₂ : Agrees M (sc₂.elseStart id) env₁ σ₁ :=
      hag₁.of_locals hlocals fun _ _ _ => rfl
    rw [hlabel]
    refine herun env₁ σ₁ K hag₂ fun env₂ σ₂ hag₂ hle => ?_
    rw [hend]
    exact hk env₂ σ₂ (hag₂.of_sameCells hsame') (hb ▸ hle)
  · rw [← sc₁.length_thenStart id cond]
    refine htrun env₁ σ₁ K hag₁ fun env₂ σ₂ hag₂ hle => ?_
    have hpJump : (sc₂.emit .jump none none (.label (doneLabel id))).2.body <+: M.code :=
      (prefix_append ..).trans hpElse
    have hs := Scope.getElem?_of_emit hpJump
    rw [Machine.run_of_jump hs rfl rfl hdone (by omega), hend]
    exact hk env₂ σ₂ (hag₂.of_sameCells hsame) (hb ▸ hle)

/-- **The code of an `if` executes it.** -/
theorem branch_sound {thenBranch elseBranch : Build Unit}
    (ht : SoundStmt names act thenBranch labels es thenEff)
    (he : SoundStmt names act elseBranch labels' es' elseEff) :
    SoundStmt names act (branch id condition thenBranch elseBranch)
      (labels ++ elseLabel id :: (labels' ++ [doneLabel id])) (condition :: (es ++ es'))
      (do if ← evalCondition act condition then thenEff else elseEff) := by
  refine ⟨branch_evolves ht.evolves he.evolves, fun {base own sc sc'} hsc h => ?_⟩
  obtain ⟨cond, sc₁, sc₂, sc₃, hc, hthen, helse, hjoin⟩ := branch_cases h
  have hbranch := branch_joins (ht.evolves hthen) (he.evolves helse) hjoin
  have hj := hbranch.joins
  -- The owners after each part of the code.
  obtain ⟨own₁, hemit, _, _, hcrun⟩ := soundExpr condition hsc hc
  obtain ⟨hB, hxB⟩ := hemit.owned.emit_unowned .branchUnless (some cond) none
    (.label (elseLabel id)) rfl
  obtain ⟨own₂, h₂, ha₂, htrun⟩ := ht.executes (hB.with_shadow (some .empty)) hthen
  obtain ⟨hJ, hxJ⟩ := h₂.emit_unowned .jump none none (.label (doneLabel id)) rfl
  obtain ⟨hE, hxE⟩ := hJ.emit_unowned .label none none (.label (elseLabel id)) rfl
  have hx₂ := hxB.trans (.of_appends (ht.evolves hthen).appends ha₂)
  have hx₃ := hxJ.trans hxE
  have hback := hemit.owned.back (hx₂.trans hx₃) hE hbranch.thenBack rfl rfl
  obtain ⟨own₃, h₃, ha₃, herun⟩ := he.executes (hback.with_shadow (some .empty)) helse
  obtain ⟨hD, hxD⟩ := h₃.emit_unowned .label none none (.label (doneLabel id)) rfl
  have hx₄ : Extends (sc₂.thenEnd id) _ sc₃ own₃ := .of_appends (he.evolves helse).appends ha₃
  have hx₅ := hx₃.trans (hx₄.trans hxD)
  have hback' := hemit.owned.back (hx₂.trans hx₅) hD hbranch.elseBack rfl rfl
  have hbound := h₂.bound_of_extends hx₅
  have hbound' := h₃.bound_of_extends hxD
  obtain ⟨own', ha', h'⟩ := hback'.joins hj hbound hbound'
  have hx₆ : Extends (sc₃.elseEnd id) _ sc' own' := .of_appends hj.appends ha'
  refine ⟨own', h', ((hemit.extends.trans hx₂).trans (hx₅.trans hx₆)).agree,
    fun M ownF hM hd hes => ?_⟩
  -- Each part of the code is a part of the code of the machine.
  have hM₃ := hM.of_extends (hxD.trans hx₆)
  have hM₂ := hM.of_extends (hx₅.trans hx₆)
  have hM₁ := hM₂.of_extends hx₂
  have hcond : condition.KeepsOperands names ∨ ¬ M.code.ReadsOverwritten :=
    hes.imp_left fun hes => hes _ mem_cons_self
  refine branch_executes hM.machine hd (hcrun M ownF hM₁ hcond) (ht.evolves hthen)
    (htrun M ownF hM₂ hd ?_) (he.evolves helse) (herun M ownF hM₃ hd ?_) hbranch hM.isPrefix
  · exact hes.imp_left fun hes e he => hes e (by simp [he])
  · exact hes.imp_left fun hes e he => hes e (by simp [he])

end Branch

/-! ## Loops -/

section Loop

variable {bodyEff : Eval Unit}

theorem loop_owned {own₂ : Owners} (h : sc.Owned names base own)
    (h₁ : sc₁.Owned names base own₁) (h₂ : (sc₂.bodyEnd id).Owned names base own₂)
    (hx : Extends sc own sc₁ own₁) (hx₁ : Extends sc₁ own₁ (sc₂.bodyEnd id) own₂)
    (hj : LoopJoins id sc sc₁ sc₂ sc') :
    ∃ own', sc'.Owned names base own' ∧ Extends (sc₂.bodyEnd id) own₂ sc' own' := by
  have hbound := h₁.bound_of_extends hx₁
  rcases hj with ⟨_, hj⟩ | ⟨mid, _, _, _, hj, hj'⟩
  · obtain ⟨own', ha, h'⟩ := (h₂.with_shadow sc.shadow?).joins hj hbound h₂.bound
    exact ⟨own', h', .of_appends hj.appends ha⟩
  · obtain ⟨own₃, ha, h₃⟩ := (h₂.with_shadow sc₁.shadow?).joins hj hbound h₂.bound
    have hx₂ : Extends (sc₂.bodyEnd id) own₂ mid own₃ := .of_appends hj.appends ha
    have hbound' := h.bound_of_extends ((hx.trans hx₁).trans hx₂)
    obtain ⟨own', ha', h'⟩ := (h₃.with_shadow sc.shadow?).joins hj' hbound' h₃.bound
    exact ⟨own', h', hx₂.trans (.of_appends hj'.appends ha')⟩

/-- One round of a loop: the machine leaves the loop, or it is at its start again with less budget. -/
def RunsRound (M : Machine Nat) (sc sc' : Scope) (condition : Eval Bool) (body : Eval Unit) : Prop :=
  ∀ (env : Env) (σ : Store Nat) (again leave : Env → Effect Value), Agrees M sc env σ →
    (∀ env' σ', Agrees M sc env' σ' → env'.budget < env.budget →
      M.run env'.budget sc.body.length σ' = again env') →
    (∀ env' σ', Agrees M sc' env' σ' → env'.budget ≤ env.budget →
      M.run env'.budget sc'.body.length σ' = leave env') →
    M.run env.budget sc.body.length σ = condition.run env >>= fun r =>
      if r.1 then body.run r.2 >>= fun r => tick.run r.2 >>= fun r => again r.2 else leave r.2

theorem RunsRound.executes {loopCondition : Eval Bool}
    (h : RunsRound M sc sc' loopCondition bodyEff) :
    Executes M sc sc' (repeatWhile loopCondition bodyEff) := by
  have hrounds : ∀ (n : Nat) (env : Env) (σ : Store Nat) (K : Env → Effect Value), env.budget < n →
      Agrees M sc env σ →
      (∀ env' σ', Agrees M sc' env' σ' → env'.budget ≤ env.budget →
        M.run env'.budget sc'.body.length σ' = K env') →
      M.run env.budget sc.body.length σ =
        (iterate loopCondition bodyEff n).run env >>= fun r => K r.2 := by
    intro n
    induction n with
    | zero => exact fun _ _ _ hn => absurd hn (Nat.not_lt_zero _)
    | succ n ih =>
      intro env σ K hn hag hk
      rw [h env σ (fun env' => (iterate loopCondition bodyEff n).run env' >>= fun r => K r.2) K hag
        (fun env' σ' hag' hlt => ?_) hk]
      · rw [iterate, StateT.run_bind, bind_assoc]
        refine congrArg (loopCondition.run env >>= ·) (funext fun r => ?_)
        cases r.1 <;> simp
      · exact ih env' σ' K (Nat.lt_of_lt_of_le hlt (Nat.le_of_lt_succ hn)) hag'
          fun env₂ σ₂ hag₂ hle => hk env₂ σ₂ hag₂ (Nat.le_trans hle (Nat.le_of_lt hlt))
  intro env σ K hag hk
  rw [hrounds (env.budget + 1) env σ K (Nat.lt_succ_self _) hag hk]
  rfl

theorem loop_runsRound (hM : CellMachine names base own M) (hd : M.code.labelNames.Nodup)
    (hc : Computes M own (sc.loopStart id) sc₁ (evalExpr act condition)
      fun σ v => M.read? σ cond = some v)
    (hce : (sc.loopStart id).Evolves [] es sc₁) (hbe : (sc₁.bodyStart id cond).Evolves labels es' sc₂)
    (hb : Executes M (sc₁.bodyStart id cond) sc₂ bodyEff) (hj : LoopJoins id sc sc₁ sc₂ sc')
    (hp : sc'.body <+: M.code) : RunsRound M sc sc' (evalCondition act condition) bodyEff := by
  obtain ⟨hsame, hsame₁, hsame₂⟩ := hj.sameCells hM.code.tied hp
  rw [← hM.place] at hsame hsame₁ hsame₂
  obtain ⟨ties, hbody, hties⟩ := hj.exists_code
  obtain ⟨hpStart, _, hpBody, _, hpEnd⟩ := hj.parts hce.appends.isPrefix hbe.appends.isPrefix hp
  have hpJump : (sc₂.emit .jump none none (.label (startLabel id))).2.body <+: M.code :=
    (prefix_append ..).trans hpEnd
  have hstart : M.code.labelPosition? (startLabel id) = some sc.body.length :=
    Scope.labelPosition?_of_emit hd hpStart
  have hend : M.code.labelPosition? (endLabel id) = some (sc₂.body.length + 1) := by
    simpa using Scope.labelPosition?_of_emit hd hpEnd
  have hlenStart := sc.length_loopStart id ▸ hce.appends.isPrefix.length_le
  have hlenBody := sc₁.length_bodyStart id cond ▸ hbe.appends.isPrefix.length_le
  intro env σ again leave hag hagain hleave
  have hlabel : M.run env.budget sc.body.length σ =
      M.run env.budget (sc.loopStart id).body.length σ := run_label hpStart
  rw [hlabel]
  refine run_condition (K := fun b env' => if b then bodyEff.run env' >>= fun r =>
    tick.run r.2 >>= fun r => again r.2 else leave env') hc hpBody hend ?_ ?_
    (fun env₁ σ₁ hag₁ hbudget => ?_) fun env₁ σ₁ hag₁ hbudget => ?_
  · exact Nat.lt_of_lt_of_le hlenBody (Nat.le_succ _)
  · exact hag.of_locals (fun _ => rfl) fun _ _ _ => rfl
  · have hlen : sc₂.body.length + 1 =
        (sc₂.emit .jump none none (.label (startLabel id))).2.body.length := by
      simp
    rw [hlen, (run_label hpEnd).trans (run_unify hbody hties hp)]
    exact hleave env₁ σ₁ (hag₁.of_sameCells hsame₁) (Nat.le_of_eq hbudget)
  · rw [← sc₁.length_bodyStart id cond]
    refine hb env₁ σ₁ (fun env₂ => tick.run env₂ >>= fun r => again r.2)
      (hag₁.of_locals (fun _ => rfl) fun _ _ _ => rfl) fun env₂ σ₂ hag₂ hle => ?_
    have hs := Scope.getElem?_of_emit hpJump
    rw [Machine.run_of_jump_back hs rfl rfl hstart (by omega)]
    have hag₃ := (hag₂.of_sameCells hsame₂).of_sameCells hsame
    cases hbudget₂ : env₂.budget with
    | zero =>
      rw [run_tick_of_zero hbudget₂]
      rfl
    | succ n =>
      have hlt : n < env.budget := by omega
      rw [run_tick_of_succ hbudget₂, pure_bind]
      exact hagain { env₂ with budget := n } σ₂ hag₃ hlt

/-- **The code of a loop executes it.** -/
theorem loop_sound {body : Build Unit} (hb : SoundStmt names act body labels es bodyEff) :
    SoundStmt names act (loop id condition body) (startLabel id :: (labels ++ [endLabel id]))
      (condition :: es) (repeatWhile (evalCondition act condition) bodyEff) := by
  refine ⟨loop_evolves hb.evolves, fun {base own sc sc'} hsc h => ?_⟩
  obtain ⟨cond, sc₁, sc₂, hc, hbody, rfl⟩ := loop_cases h
  have hce := lowerExpr_evolves hc
  have hbe := hb.evolves hbody
  have hj := loop_joins hce hbe
  -- The owners after each part of the code.
  obtain ⟨hS, hxS⟩ := (hsc.with_shadow (some .empty)).emit_unowned .label none none
    (.label (startLabel id)) rfl
  obtain ⟨own₁, hemit, _, _, hcrun⟩ := soundExpr condition hS hc
  obtain ⟨hB, hxB⟩ := (hemit.owned.with_shadow (some .empty)).emit_unowned .branchUnless (some cond)
    none (.label (endLabel id)) rfl
  obtain ⟨own₂, h₂, ha₂, hbrun⟩ := hb.executes hB hbody
  obtain ⟨hJ, hxJ⟩ := h₂.emit_unowned .jump none none (.label (startLabel id)) rfl
  obtain ⟨hE, hxE⟩ := hJ.emit_unowned .label none none (.label (endLabel id)) rfl
  have hx₁ : Extends sc own sc₁ own₁ := (Extends.with_shadow hxS).trans hemit.extends
  have hx₂ : Extends sc₁ own₁ sc₂ own₂ :=
    (Extends.with_shadow hxB).trans (.of_appends hbe.appends ha₂)
  have hx₃ := hxJ.trans hxE
  obtain ⟨own', h', hx₄⟩ := loop_owned hsc hemit.owned hE hx₁ (hx₂.trans hx₃) hj
  refine ⟨own', h', (hx₁.trans (hx₂.trans (hx₃.trans hx₄))).agree, fun M ownF hM hd hes => ?_⟩
  have hM₂ := hM.of_extends (hx₃.trans hx₄)
  have hM₁ := hM₂.of_extends hx₂
  have hcond : condition.KeepsOperands names ∨ ¬ M.code.ReadsOverwritten :=
    hes.imp_left fun hes => hes _ mem_cons_self
  have hrun := hbrun M ownF hM₂ hd (hes.imp_left fun hes e he => hes e (mem_cons_of_mem _ he))
  exact (loop_runsRound hM.machine hd (hcrun M ownF hM₁ hcond) hce hbe hrun hj
    hM.isPrefix).executes

end Loop

/-! ## Statements -/

theorem nothing_sound : SoundStmt names act (pure ()) [] [] (pure ()) := by
  refine ⟨fun h => ?_, fun {base own sc sc'} hsc h => ?_⟩
  · obtain ⟨_, rfl⟩ := Build.pure_eq_ok.1 h
    exact .refl _
  · obtain ⟨_, rfl⟩ := Build.pure_eq_ok.1 h
    exact ⟨own, hsc, .refl _ _, fun M _ _ _ _ => .refl M _⟩

theorem seq_sound {first second : Build Unit}
    (h : SoundStmt names act first labels es eff)
    (h' : SoundStmt names act second labels' es' eff') :
    SoundStmt names act (do first; second) (labels ++ labels') (es ++ es') (do eff; eff') := by
  refine ⟨fun hr => ?_, fun {base own sc sc'} hsc hr => ?_⟩
  · obtain ⟨_, sc₁, h₁, h₂⟩ := Build.bind_eq_ok.1 hr
    exact (h.evolves h₁).trans (h'.evolves h₂)
  · obtain ⟨_, sc₁, h₁, h₂⟩ := Build.bind_eq_ok.1 hr
    obtain ⟨own₁, hsc₁, ha₁, hrun₁⟩ := h.executes hsc h₁
    obtain ⟨own', hsc', ha', hrun'⟩ := h'.executes hsc₁ h₂
    have hx₁ := Extends.of_appends (h.evolves h₁).appends ha₁
    have hx' := Extends.of_appends (h'.evolves h₂).appends ha'
    refine ⟨own', hsc', (hx₁.trans hx').agree, fun M ownF hM hd hes => ?_⟩
    have hfirst := hrun₁ M ownF (hM.of_extends hx') hd
      (hes.imp_left fun hes e he => hes e (mem_append_left _ he))
    have hsecond := hrun' M ownF hM hd
      (hes.imp_left fun hes e he => hes e (mem_append_right _ he))
    exact hfirst.seq hsecond

theorem expr_sound (e : Expr) :
    SoundStmt names act (do let _ ← lowerExpr e) [] [e] (do let _ ← evalExpr act e) := by
  refine ⟨fun hr => ?_, fun {base own sc sc'} hsc hr => ?_⟩ <;>
    simp only [Build.bind_eq_ok, Build.pure_eq_ok] at hr <;> obtain ⟨v, _, hv, _, rfl⟩ := hr
  · exact lowerExpr_evolves hv
  · obtain ⟨own', hemit, _, _, hrun⟩ := soundExpr e hsc hv
    refine ⟨own', hemit.owned, hemit.agree, fun M ownF hM _ hes env σ K hag hk => ?_⟩
    have hcomp := hrun M ownF hM (hes.imp_left fun hes => hes e mem_cons_self)
    have heq : ((do let _ ← evalExpr act e : Eval Unit).run env >>= fun r => K r.2) =
        (evalExpr act e).run env >>= fun r => K r.2 := by
      simp
    rw [heq]
    exact hcomp env σ (fun _ => K) hag fun _ env' σ' hag' _ _ hb =>
      hk env' σ' hag' (Nat.le_of_eq hb)

theorem print_sound (e : Expr) :
    SoundStmt names act (lowerStmt (.print e)) [] [e] (do let v ← evalExpr act e; printInt v) := by
  refine ⟨fun hr => by simpa [Stmt.labels, Stmt.exprs] using lowerStmt_evolves _ hr,
    fun {base own sc sc'} hsc hr => ?_⟩
  simp only [lowerStmt, Build.bind_eq_ok, Build.emit_eq_ok, Build.pure_eq_ok] at hr
  obtain ⟨v, sc₁, hv, _, _, ⟨_, rfl⟩, _, rfl⟩ := hr
  obtain ⟨own₁, hemit, _, _, hrun⟩ := soundExpr e hsc hv
  obtain ⟨hP, hxP⟩ := hemit.owned.emit_unowned .print (some v) none .none rfl
  refine ⟨_, hP, (hemit.extends.trans hxP).agree, fun M ownF hM _ hes env σ K hag hk => ?_⟩
  have hcomp := hrun M ownF (hM.of_extends hxP) (hes.imp_left fun hes => hes e mem_cons_self)
  have hprint := hcomp.emit_nothing printInt hM.isPrefix fun σ a ha => ⟨[a], ?_, rfl⟩
  · have heq : ((do let v ← evalExpr act e; printInt v : Eval Unit).run env >>= fun r => K r.2) =
        (do let a ← evalExpr act e; (printInt a : Eval Unit); return a : Eval Value).run env >>=
          fun r => K r.2 := by
      simp
    rw [heq]
    exact hprint env σ (fun _ => K) hag fun _ env' σ' hag' _ _ hb =>
      hk env' σ' hag' (Nat.le_of_eq hb)
  · simp [Statement.reads, Statement.uses, Statement.operands, Statement.payloadOperands,
      Op.isMerge, ha]

variable (names act)

mutual

/-- **The code of a statement executes it.** -/
theorem soundStmt : ∀ s : Stmt,
    SoundStmt names act (lowerStmt s) s.labels s.exprs (execStmt act s)
  | .block stmts => by
    rw [lowerStmt, Stmt.labels, Stmt.exprs, execStmt]
    exact soundStmts stmts
  | .ifThen id condition thenBranch => by
    have h : SoundStmt names act (branch id condition (lowerStmt thenBranch) (pure ())) _ _ _ :=
      branch_sound (soundStmt thenBranch) nothing_sound
    rw [lowerStmt, Stmt.labels, Stmt.exprs, execStmt]
    simpa using h
  | .ifElse id condition thenBranch elseBranch => by
    rw [lowerStmt, Stmt.labels, Stmt.exprs, execStmt]
    exact branch_sound (soundStmt thenBranch) (soundStmt elseBranch)
  | .while id condition body => by
    rw [lowerStmt, Stmt.labels, Stmt.exprs, execStmt]
    exact loop_sound (soundStmt body)
  | .print value => by
    rw [Stmt.labels, Stmt.exprs, execStmt]
    exact print_sound value
  | .expr value => by
    rw [lowerStmt, Stmt.labels, Stmt.exprs, execStmt]
    exact expr_sound value

theorem soundStmts : ∀ ss : List Stmt,
    SoundStmt names act (lowerStmts ss) (stmtsLabels ss) (stmtsExprs ss) (execStmts act ss)
  | [] => by
    rw [lowerStmts, stmtsLabels, stmtsExprs, execStmts]
    exact nothing_sound
  | s :: ss => by
    rw [lowerStmts, stmtsLabels, stmtsExprs, execStmts]
    exact seq_sound (soundStmt s) (soundStmts ss)

end

end Ssa

end MiniJava
