import Mathlib
import MiniJava.Proofs.Lowering.Statements
import MiniJava.Proofs.Results

/-!
# The meaning of the code of methods

A method starts with its parameters, a copy of each, and its locals. Each of these statements gives
a local its value, so the code before the body binds the locals as a call does. Together with the
code of statements and expressions this gives what the code of a method does.
-/

namespace MiniJava.Ssa

open Ast Build List Statement

variable {x owner : String} {u : Unit} {decls rest : List VarDecl} {m : MethodDecl}
  {method : Method} {main : MainClass}

/-! ## The parts of a method -/

theorem Build.declare_eq_ok {id : StmtId} {sc sc' : Scope} : declare x id sc = .ok u sc' ↔
      sc.locals.find? x = none ∧ sc' = { sc with locals := sc.locals.insert x id } := by
  have hdeclare : declare x id sc =
      match sc.declare x id with
      | .ok sc' => .ok () sc'
      | .error e => .error e sc := by
    change (MonadExcept.ofExcept (sc.declare x id) >>= set : Build Unit) sc = _
    cases sc.declare x id <;> rfl
  rw [hdeclare, Scope.declare, Bindings.contains]
  cases sc.locals.find? x <;> simp [eq_comm]

def Scope.emitBound (sc : Scope) (x : String) (op : Op) (value? : Option StmtId)
    (payload : Payload) : Scope :=
  { (sc.emit op value? value? payload).2 with locals := sc.locals.insert x sc.nextId }

theorem declareParams_cons_cases {position : Nat} {param : VarDecl} {params : List VarDecl}
    {ids : List StmtId} {sc sc' : Scope}
    (h : declareParams position (param :: params) sc = .ok ids sc') :
    ∃ rest, ids = sc.nextId :: rest ∧ sc.locals.find? param.name = none ∧
      declareParams (position + 1) params
        (sc.emitBound param.name .parameter none (.position position)) = .ok rest sc' := by
  rw [declareParams] at h
  obtain ⟨_, sc₁, h₁, h⟩ := bind_eq_ok.1 h
  obtain ⟨rfl, rfl⟩ := emit_eq_ok.1 h₁
  obtain ⟨_, sc₂, h₂, h⟩ := bind_eq_ok.1 h
  obtain ⟨hnone, rfl⟩ := declare_eq_ok.1 h₂
  obtain ⟨rest, sc₃, h₃, h⟩ := bind_eq_ok.1 h
  obtain ⟨rfl, rfl⟩ := pure_eq_ok.1 h
  exact ⟨rest, rfl, hnone, h₃⟩

def copyParams (incoming : List (VarDecl × StmtId)) : Build Unit :=
  incoming.forM fun pv => copyParam pv.1.name pv.2

theorem copyParams_cons_cases {pv : VarDecl × StmtId} {rest : List (VarDecl × StmtId)}
    {sc sc' : Scope} (h : copyParams (pv :: rest) sc = .ok u sc') :
    copyParams rest (sc.emitBound pv.1.name .assignVar (some pv.2) (.name pv.1.name)) =
      .ok u sc' := h

theorem declareLocals_cons_cases {decl : VarDecl} {sc sc' : Scope}
    (h : (decl :: decls).forM declareLocal sc = .ok u sc') :
    sc.locals.find? decl.name = none ∧
      decls.forM declareLocal (sc.emitBound decl.name .null none (.type decl.type)) =
        .ok u sc' := by
  change (declareLocal decl >>= fun _ => decls.forM declareLocal) sc = .ok u sc' at h
  obtain ⟨_, sc₁, h₁, h⟩ := bind_eq_ok.1 h
  obtain ⟨_, sc₂, h₂, h₁⟩ := bind_eq_ok.1 h₁
  obtain ⟨rfl, rfl⟩ := emit_eq_ok.1 h₂
  obtain ⟨hnone, rfl⟩ := declare_eq_ok.1 h₁
  exact ⟨hnone, h⟩

/-- Lowers what comes before the body of a method: its parameters, their copies and the initial values
of its locals. -/
def lowerPrologue (m : MethodDecl) : Build Unit := do
  beginMethod
  let incoming ← declareParams 0 m.params
  copyParams (m.params.zip incoming)
  m.locals.forM declareLocal

/-- The code before the body of a method up to some point: its first parameters, the copies of some of
them, and its first locals. Each statement binds the local that it is for, and the values of the
parameters have the first numbers. -/
inductive Opens (sc₀ : Scope) : List VarDecl → Nat → List VarDecl → Scope → Prop
  | start : Opens sc₀ [] 0 [] sc₀.beginMethod
  | parameter {ps : List VarDecl} {sc : Scope} {d : VarDecl} (h : Opens sc₀ ps 0 [] sc)
    (hd : sc.locals.find? d.name = none) :
    Opens sc₀ (ps ++ [d]) 0 [] (sc.emitBound d.name .parameter none (.position ps.length))
  | copy {ps : List VarDecl} {k : Nat} {sc : Scope} {d : VarDecl} (h : Opens sc₀ ps k [] sc)
    (hd : ps[k]? = some d) : Opens sc₀ ps (k + 1) []
      (sc.emitBound d.name .assignVar (some (sc₀.nextId + k)) (.name d.name))
  | declare {ps ls : List VarDecl} {sc : Scope} {d : VarDecl} (h : Opens sc₀ ps ps.length ls sc)
    (hd : sc.locals.find? d.name = none) :
    Opens sc₀ ps ps.length (ls ++ [d]) (sc.emitBound d.name .null none (.type d.type))

namespace Opens

variable {sc₀ sc sc' : Scope} {ps ls : List VarDecl} {k : Nat}

theorem nextId (h : Opens sc₀ ps k ls sc) : sc.nextId = sc₀.nextId + sc.body.length := by
  induction h with
  | start => rfl
  | parameter _ _ ih | copy _ _ ih | declare _ _ ih =>
    rw [Scope.emitBound, Scope.body_emit, length_append, ← Nat.add_assoc, ← ih]
    rfl

theorem length (h : Opens sc₀ ps k ls sc) : sc.body.length = ps.length + k + ls.length := by
  induction h with
  | start => rfl
  | parameter | copy | declare =>
    rw [Scope.emitBound, Scope.body_emit]
    simp only [length_append, length_singleton, length_nil] at *
    omega

theorem of_declareParams : ∀ {ps : List VarDecl} {ids : List StmtId}
    {sc : Scope}, Opens sc₀ ps 0 [] sc → declareParams ps.length rest sc = .ok ids sc' →
    Opens sc₀ (ps ++ rest) 0 [] sc' ∧ ids = List.range' (sc₀.nextId + ps.length) rest.length := by
  induction rest with
  | nil =>
    intro ps ids sc hsc h
    obtain ⟨rfl, rfl⟩ := pure_eq_ok.1 h
    exact ⟨by rwa [append_nil], rfl⟩
  | cons d rest ih =>
    intro ps ids sc hsc h
    obtain ⟨ids, rfl, hnone, h⟩ := declareParams_cons_cases h
    obtain ⟨hsc', rfl⟩ := ih (hsc.parameter hnone) (by rwa [length_append])
    rw [append_assoc] at hsc'
    refine ⟨hsc', ?_⟩
    rw [hsc.nextId, hsc.length, length_cons, range'_succ, length_append]
    rfl

theorem of_copyParams : ∀ {done : List VarDecl} {sc : Scope} {u : Unit},
    Opens sc₀ (done ++ rest) done.length [] sc →
    copyParams (rest.zip (List.range' (sc₀.nextId + done.length) rest.length)) sc = .ok u sc' →
    Opens sc₀ (done ++ rest) (done ++ rest).length [] sc' := by
  induction rest with
  | nil =>
    intro done sc u hsc h
    obtain ⟨_, rfl⟩ := pure_eq_ok.1 h
    rwa [append_nil] at hsc ⊢
  | cons d rest ih =>
    intro done sc u hsc h
    have hcopy := hsc.copy (d := d) (by simp)
    rw [← singleton_append, ← append_assoc] at hcopy ⊢
    exact ih (by rwa [length_append]) (by rw [length_append]; exact copyParams_cons_cases h)

theorem of_declareLocals : ∀ {ls : List VarDecl} {sc : Scope} {u : Unit},
    Opens sc₀ ps ps.length ls sc → decls.forM declareLocal sc = .ok u sc' →
    Opens sc₀ ps ps.length (ls ++ decls) sc' := by
  induction decls with
  | nil =>
    intro ls sc u hsc h
    obtain ⟨_, rfl⟩ := pure_eq_ok.1 h
    rwa [append_nil]
  | cons d decls ih =>
    intro ls sc u hsc h
    obtain ⟨hnone, h⟩ := declareLocals_cons_cases h
    rw [← singleton_append, ← append_assoc]
    exact ih (hsc.declare hnone) h

/-- **The parameters and the locals have different names**, and these are the names that are bound.
Parameters that are not copied yet are bound to their values. -/
theorem bindings (h : Opens sc₀ ps k ls sc) : ((ps ++ ls).map (·.name)).Nodup ∧
    (∀ x, sc.locals.find? x = none ↔ x ∉ (ps ++ ls).map (·.name)) ∧
    ∀ j d, k ≤ j → ps[j]? = some d → sc.locals.find? d.name = some (sc₀.nextId + j) := by
  induction h with
  | start => simp [Scope.beginMethod]
  | @parameter ps sc d h hd ih =>
    obtain ⟨hnodup, hnames, hbound⟩ := ih
    simp only [append_nil] at hnodup hnames ⊢
    have hnot := (hnames d.name).1 hd
    refine ⟨?_, fun x => ?_, fun j d' _ hj => ?_⟩
    · rw [map_append, map_singleton, ← concat_eq_append]
      exact hnodup.concat hnot
    · rw [Scope.emitBound, Bindings.find?_insert]
      split <;> simp_all
    · rw [Scope.emitBound, Bindings.find?_insert]
      rcases Nat.lt_or_ge j ps.length with hlt | hle
      · rw [getElem?_append_left hlt] at hj
        have hne : d'.name ≠ d.name := fun heq =>
          hnot (heq ▸ mem_map_of_mem (mem_of_getElem? hj))
        rw [if_neg hne, hbound j d' (Nat.zero_le j) hj]
      · obtain rfl : j = ps.length := by
          have hlt := lt_of_getElem? hj
          rw [length_append, length_singleton] at hlt
          omega
        obtain rfl : d = d' := by simpa using hj
        rw [if_pos rfl, h.nextId, h.length]
        rfl
  | @copy ps k sc d h hd ih =>
    obtain ⟨hnodup, hnames, hbound⟩ := ih
    refine ⟨hnodup, fun x => ?_, fun j d' hle hj => ?_⟩
    · rw [Scope.emitBound, Bindings.find?_insert]
      split
      · next heq => simpa [heq] using ⟨d, mem_of_getElem? hd, rfl⟩
      · exact hnames x
    · have hne : d'.name ≠ d.name := by
        intro heq
        have hget : (ps.map (·.name))[j]? = (ps.map (·.name))[k]? := by simp [hj, hd, heq]
        have hlt : j < (ps.map (·.name)).length := by
          simpa using lt_of_getElem? hj
        rw [append_nil] at hnodup
        exact Nat.ne_of_gt hle ((getElem?_inj hlt hnodup).1 hget)
      rw [Scope.emitBound, Bindings.find?_insert, if_neg hne, hbound j d' (Nat.le_of_succ_le hle) hj]
  | @declare ps ls sc d h hd ih =>
    obtain ⟨hnodup, hnames, hbound⟩ := ih
    have hnot := (hnames d.name).1 hd
    rw [← append_assoc]
    refine ⟨?_, fun x => ?_, fun j d' hle hj =>
      absurd (lt_of_getElem? hj) (Nat.not_lt.2 hle)⟩
    · rw [map_append, map_singleton, ← concat_eq_append]
      exact hnodup.concat hnot
    · rw [Scope.emitBound, Bindings.find?_insert]
      split <;> simp_all

end Opens

theorem lowerMethod_cases {sc sc' : Scope} (h : lowerMethod owner m sc = .ok method sc') :
    ∃ sc₁ sc₂ result sc₃, lowerPrologue m sc = .ok () sc₁ ∧
      Opens sc m.params m.params.length m.locals sc₁ ∧ lowerStmts m.body sc₁ = .ok () sc₂ ∧
      lowerExpr m.result sc₂ = .ok result sc₃ ∧
      method.body = (sc₃.emit .ret (some result) none .none).2.body ∧
      sc'.nextId = sc₃.nextId + 1 := by
  rw [lowerMethod] at h
  obtain ⟨_, _, h₀, h⟩ := bind_eq_ok.1 h
  cases h₀
  obtain ⟨incoming, sc₁, h₁, h⟩ := bind_eq_ok.1 h
  obtain ⟨_, sc₂, h₂, h⟩ := bind_eq_ok.1 h
  obtain ⟨_, sc₃, h₃, h⟩ := bind_eq_ok.1 h
  obtain ⟨_, sc₄, h₄, h⟩ := bind_eq_ok.1 h
  obtain ⟨result, sc₅, h₅, h⟩ := bind_eq_ok.1 h
  cases h
  have hprologue : lowerPrologue m sc = .ok () sc₃ :=
    bind_eq_ok.2 ⟨(), sc.beginMethod, rfl, bind_eq_ok.2 ⟨incoming, sc₁, h₁,
      bind_eq_ok.2 ⟨(), sc₂, h₂, h₃⟩⟩⟩
  obtain ⟨hparams, rfl⟩ := Opens.of_declareParams .start h₁
  have hfirst : Opens sc ([] ++ m.params) ([] : List VarDecl).length [] sc₁ := hparams
  have hcopies : Opens sc m.params m.params.length [] sc₂ := hfirst.of_copyParams h₂
  exact ⟨sc₃, sc₄, result, sc₅, hprologue, hcopies.of_declareLocals h₃, h₄, h₅, rfl, rfl⟩

theorem lowerMain_cases {sc sc' : Scope} (h : lowerMain main sc = .ok method sc') :
    ∃ sc₁, lowerStmt main.body sc.beginMethod = .ok () sc₁ ∧ method.body = sc₁.body ∧
      sc'.nextId = sc₁.nextId := by
  rw [lowerMain] at h
  obtain ⟨_, _, h₀, h⟩ := bind_eq_ok.1 h
  cases h₀
  obtain ⟨_, sc₁, h₁, h⟩ := bind_eq_ok.1 h
  cases h
  exact ⟨sc₁, h₁, rfl, rfl⟩

/-! ## The code before the body -/

section Prologue

variable {names : List String} {base : Nat} {act : Activation} {own : Owners}
  {sc sc₁ sc' : Scope} {eff eff' : Eval Unit}

def Prepares (names : List String) (base : Nat) (act : Activation) (own : Owners)
    (sc sc' : Scope) (eff : Eval Unit) : Prop :=
  ∃ own', sc'.Owned names base own' ∧ sc.Appends [] sc' ∧ AgreeBelow sc.nextId own own' ∧
    ∀ M ownF, Completes names base act sc' own' M ownF → Executes M sc sc' eff

theorem Prepares.refl (hsc : sc.Owned names base own) :
    Prepares names base act own sc sc (pure ()) :=
  ⟨own, hsc, .refl _, .refl _ _, fun M _ _ => .refl M sc⟩

theorem Prepares.seq (h : Prepares names base act own sc sc₁ eff)
    (h' : ∀ own₁, sc₁.Owned names base own₁ → Prepares names base act own₁ sc₁ sc' eff') :
    Prepares names base act own sc sc' (do eff; eff') := by
  obtain ⟨own₁, hsc₁, happ, hag, hrun⟩ := h
  obtain ⟨own', hsc', happ', hag', hrun'⟩ := h' own₁ hsc₁
  refine ⟨own', hsc', by simpa using happ.trans happ', hag.trans hag' happ.nextId_le,
    fun M ownF hM => ?_⟩
  exact (hrun M ownF (hM.of_extends (.of_appends happ' hag'))).seq (hrun' M ownF hM)

theorem Prepares.bind (hsc : sc.Owned names base own) (hx : x ∈ names) {op : Op}
    (value? : Option StmtId) (payload : Payload) (hdef : op.definesValue = true)
    (hmerge : op.isMerge = false) (hlabel : op ≠ .label)
    (hf : ∀ (M : Machine Nat) env σ, Agrees M sc env σ → ∃ values f, (reads ⟨sc.nextId, op, value?, value?, payload, none, none, none⟩).mapM (M.read? σ) = some values ∧ perform act op payload values = .value <$> f ∧ eff.run env = f >>= fun v => pure ((), env.set x v)) :
    Prepares names base act own sc (sc.emitBound x op value? payload) eff := by
  have hbound : (sc.emitBound x op value? payload).Owned names base
      (own.set sc.nextId (some x)) := by
    have hemit : (sc.emit op value? value? payload).2.Owned names base
        (own.set sc.nextId (some x)) := by
      refine hsc.emit _ _ _ hmerge (fun y hy => ?_) fun _ => hdef
      cases hy
      exact hx
    exact (hemit.rebind ⟨_, mem_append_right _ mem_cons_self, rfl⟩
      (own.set_self ..)).with_shadow sc.shadow?
  refine ⟨_, hbound, .emit sc _ _ _ hlabel, .set _ _ _, fun M ownF hM env σ K hag hk => ?_⟩
  have hp : (sc.emit op value? value? payload).2.body <+: M.code := hM.isPrefix
  have hs := Scope.getElem?_of_emit hp
  obtain ⟨c, hcell⟩ := hM.machine.exists_place? (mem_of_getElem? hs)
    (by simp [isTracked, hdef])
  have hown : ownF sc.nextId = some x := by
    rw [hM.agree sc.nextId (Nat.lt_succ_self _), Owners.set_self]
  have hsc' : sc.Owned names base ownF :=
    hsc.congr ((AgreeBelow.set _ _ _).trans hM.agree (Nat.le_succ _))
  obtain ⟨values, f, hvalues, hperform, heff⟩ := hf M env σ hag
  rw [Machine.run_of_value hs hvalues (hM.activation ▸ hperform) hcell, heff, bind_assoc]
  refine congrArg (f >>= ·) (funext fun v => ?_)
  have hag' : Agrees M (sc.emitBound x op value? payload) (env.set x v) (σ.put c v) :=
    hM.machine.agrees_bind hsc' hag hcell hown v fun y => Bindings.find?_insert ..
  rw [pure_bind, ← hk (env.set x v) _ hag' (Nat.le_refl _)]
  have hlen : (sc.emitBound x op value? payload).body.length = sc.body.length + 1 := by
    simp [Scope.emitBound]
  rw [hlen]
  rfl

def argument (act : Activation) (position : Nat) : Effect Value :=
  match act.args[position]? with
  | some v => pure v
  | none => fault .missingArgument

theorem perform_parameter (act : Activation) (position : Nat) (values : List Value) :
    perform act .parameter (.position position) values = .value <$> argument act position := by
  rw [argument]
  cases h : act.args[position]? <;> simp only [perform, h] <;> rfl

theorem bindParams_concat (act : Activation) (ps : List VarDecl) (d : VarDecl) :
    bindParams (ps ++ [d]) act.args = (do
      bindParams ps act.args
      (do let v ← argument act ps.length; modify (·.set d.name v) : Eval Unit)) := by
  obtain ⟨runtime, receiver?, args⟩ := act
  induction ps generalizing args with
  | nil =>
    cases args with
    | nil => rfl
    | cons v args => simp [bindParams, argument]
  | cons p ps ih =>
    cases args with
    | nil => rfl
    | cons v args => simp only [cons_append, bindParams, ih, bind_assoc]; rfl

theorem bindLocals_concat (ls : List VarDecl) (d : VarDecl) :
    bindLocals (ls ++ [d]) = (do
      bindLocals ls
      (modify (·.set d.name (.initial d.type)) : Eval Unit)) := by
  induction ls with
  | nil => simp [bindLocals]
  | cons l ls ih => simp only [cons_append, bindLocals, ih, bind_assoc]

end Prologue

/-! ## Methods -/

section Methods

variable {names : List String} {base : Nat} {act : Activation}

theorem Scope.owned_beginMethod (sc : Scope) :
    sc.beginMethod.Owned names sc.nextId fun _ => none := by
  refine ⟨⟨rfl, ?_, ?_, ?_⟩, rfl, ?_⟩
  · simp [Scope.beginMethod]
  · simp [Scope.beginMethod]
  · simp [Scope.beginMethod]
  · intro x b hx
    cases hx

theorem Opens.prepares (act : Activation) {sc₀ sc : Scope} {ps ls : List VarDecl} {k : Nat}
    (h : Opens sc₀ ps k ls sc) (hnames : ∀ d ∈ ps ++ ls, d.name ∈ names) :
    Prepares names sc₀.nextId act (fun _ => none) sc₀.beginMethod sc
      (do bindParams ps act.args; bindLocals ls) := by
  induction h with
  | start => simpa [bindParams, bindLocals] using Prepares.refl sc₀.owned_beginMethod
  | @parameter ps sc d h hd ih =>
    have heff : (do bindParams (ps ++ [d]) act.args; bindLocals []) = (do
        (do bindParams ps act.args; bindLocals [])
        (do let v ← argument act ps.length; modify (·.set d.name v) : Eval Unit)) := by
      simp [bindParams_concat, bindLocals]
    rw [heff]
    refine (ih fun e he => hnames e (by simp_all)).seq fun own hsc =>
      .bind hsc (hnames d (by simp)) none _ rfl rfl (by simp) fun M env σ _ => ?_
    exact ⟨[], argument act ps.length, rfl, perform_parameter .., by simp⟩
  | @copy ps k sc d h hd ih =>
    have heff : (do bindParams ps act.args; bindLocals []) = (do
        (do bindParams ps act.args; bindLocals [])
        (pure () : Eval Unit)) := by
      simp [bindLocals]
    rw [heff]
    refine (ih hnames).seq fun own hsc => .bind hsc (hnames d (by simp [mem_of_getElem? hd]))
      (some (sc₀.nextId + k)) _ rfl rfl (by simp) fun M env σ hag => ?_
    have hx := hag d.name
    rw [h.bindings.2.2 k d (Nat.le_refl k) hd] at hx
    obtain ⟨v, hv, hread⟩ := hx
    exact ⟨[v], pure v, by simp [reads, hread], rfl, by simp [Env.set_eq_self hv]⟩
  | @declare ps ls sc d h hd ih =>
    rw [bindLocals_concat, ← bind_assoc]
    refine (ih fun e he => hnames e (by simp at he ⊢; tauto)).seq fun own hsc =>
      .bind hsc (hnames d (by simp)) none _ rfl rfl (by simp) fun M env σ _ => ?_
    exact ⟨[], pure (.initial d.type), rfl, rfl, by simp⟩

theorem Completes.refl {sc : Scope} {own : Owners} (h : sc.Owned names base own)
    (act : Activation) : Completes names base act sc own (cellMachine sc.body act) own :=
  ⟨⟨h.body, rfl⟩, rfl, prefix_refl _, .refl _ _⟩

theorem agrees_beginMethod (M : Machine Nat) (sc : Scope) (budget : Nat) (σ : Store Nat) :
    Agrees M sc.beginMethod ⟨fun _ => none, budget⟩ σ :=
  fun _ => rfl

theorem run_ret {M : Machine Nat} {sc : Scope} {result : StmtId} {budget : Nat} {σ : Store Nat}
    {v : Value} (hp : (sc.emit .ret (some result) none .none).2.body <+: M.code)
    (hv : M.read? σ result = some v) : M.run budget sc.body.length σ = pure v := by
  have hs := Scope.getElem?_of_emit hp
  have hreads : (reads ⟨sc.nextId, .ret, some result, none, .none, none, none,
      none⟩).mapM (M.read? σ) = some [v] := by
    simp [reads, uses, Statement.operands, payloadOperands,
      Op.isMerge, hv]
  exact Machine.run_of_leave hs hreads rfl

theorem exec_lowerMethod {sc sc' : Scope} (h : lowerMethod owner m sc = .ok method sc')
    (hids : (stmtsNodeIds m.body).Nodup)
    (hkeep : (∀ e ∈ stmtsExprs m.body ++ [m.result], e.KeepsOperands ((m.params ++ m.locals).map (·.name))) ∨ ¬ method.body.ReadsOverwritten)
    (budget : Nat) :
    (cellMachine method.body act).exec budget = evalMethod act m budget := by
  obtain ⟨sc₃, sc₄, result, sc₅, _, hopens, h₄, h₅, hbody, _⟩ := lowerMethod_cases h
  have hstmts := soundStmts ((m.params ++ m.locals).map (·.name)) act m.body
  obtain ⟨own₃, hsc₃, happ₃, hag₃, hrun₃⟩ := hopens.prepares act fun d hd => mem_map_of_mem hd
  obtain ⟨own₄, hsc₄, hag₄, hrun₄⟩ := hstmts.executes hsc₃ h₄
  have hresult : SoundExpr ((m.params ++ m.locals).map (·.name)) act m.result :=
    soundExpr m.result
  obtain ⟨own₅, hemit, _, _, hrun₅⟩ := hresult hsc₄ h₅
  obtain ⟨hR, hxR⟩ := hemit.owned.emit_unowned .ret (some result) none .none rfl
  have hx₄ := Extends.of_appends (hstmts.evolves h₄).appends hag₄
  -- The labels of the method are those of its body.
  have hd : (sc₅.emit .ret (some result) none .none).2.body.labelNames.Nodup := by
    have hret : sc₅.Appends [] (sc₅.emit .ret (some result) none .none).2 :=
      .emit sc₅ _ _ _ (by simp)
    obtain ⟨code, hcode, _, _, hlabels⟩ :=
      ((happ₃.trans (hstmts.evolves h₄).appends).trans hemit.appends).trans hret
    rw [hcode, Scope.beginMethod, nil_append, hlabels]
    simpa using nodup_stmtsLabels m.body hids
  rw [hbody] at hkeep ⊢
  have hM := Completes.refl hR act
  have hM₅ := hM.of_extends hxR
  have hM₄ := hM₅.of_emits hemit
  have hprologue := hrun₃ _ _ (hM₄.of_extends hx₄)
  have hcode := hrun₄ _ _ hM₄ hd (hkeep.imp_left fun hkeep e he =>
    hkeep e (mem_append_left _ he))
  have hvalue := hrun₅ _ _ hM₅ (hkeep.imp_left fun hkeep => hkeep _ (by simp))
  have hrun := (hprologue.seq hcode) ⟨fun _ => none, budget⟩ .empty
    (fun env => (evalExpr act m.result).run env >>= fun r => pure r.1)
    (agrees_beginMethod _ sc budget _) fun env₄ σ₄ hag₄ _ => ?_
  · refine Eq.trans hrun ?_
    simp only [evalMethod, StateT.run'_eq, StateT.run_bind, map_eq_pure_bind, bind_assoc]
  · refine hvalue env₄ σ₄ (fun v _ => pure v) hag₄ fun v env₅ σ₅ _ _ hv _ => ?_
    exact run_ret hM.isPrefix hv

theorem exec_lowerMain {sc sc' : Scope} (h : lowerMain main sc = .ok method sc')
    (hids : main.body.nodeIds.Nodup) (budget : Nat) :
    (cellMachine method.body act).exec budget = evalMain act main budget := by
  obtain ⟨sc₁, h₁, hbody, _⟩ := lowerMain_cases h
  have hstmt := soundStmt [] act main.body
  obtain ⟨own₁, hsc₁, _, hrun₁⟩ := hstmt.executes sc.owned_beginMethod h₁
  have hd : sc₁.body.labelNames.Nodup := by
    obtain ⟨code, hcode, _, _, hlabels⟩ := (hstmt.evolves h₁).appends
    rw [hcode, Scope.beginMethod, nil_append, hlabels]
    exact nodup_labels main.body hids
  rw [hbody]
  -- There are no locals that an operand could belong to.
  have hcode := hrun₁ _ _ (Completes.refl hsc₁ act) hd (Or.inl fun e _ => .nil e)
  have hrun := hcode ⟨fun _ => none, budget⟩ .empty (fun _ => pure .null)
    (agrees_beginMethod _ sc budget _) fun env₁ σ₁ _ _ => ?_
  · refine Eq.trans hrun ?_
    simp only [evalMain, StateT.run'_eq, StateT.run_bind, StateT.run_pure, map_eq_pure_bind,
      bind_assoc, pure_bind]
  · exact Machine.run_of_length_le (Nat.le_refl _)

end Methods

/-! ## Meaning -/

/-- **The code of a method does what the method does.** Executed with one cell for the statements that
merges tie together, it prints the same numbers, has the same effect on the heap and gives the same
result as evaluation of the syntax tree, within every budget, for every receiver, arguments and
behaviour of the methods that it calls.

For a method this needs that no operand is overwritten before it is read. It is enough that no
operand which assigns a local to itself is followed by one that assigns this local, or that the code
has no such read. An entry point has no locals and needs nothing. -/
theorem lowering_preserves_meaning (method : Method) (sc sc' : Scope) (act : Activation)
    (budget : Nat) :
    (∀ (owner : String) (m : MethodDecl), lowerMethod owner m sc = .ok method sc' →
      (stmtsNodeIds m.body).Nodup →
      (∀ e ∈ stmtsExprs m.body ++ [m.result],
        e.KeepsOperands ((m.params ++ m.locals).map (·.name))) ∨
          ¬ method.body.ReadsOverwritten →
      (cellMachine method.body act).exec budget = evalMethod act m budget) ∧
    ∀ main : MainClass, lowerMain main sc = .ok method sc' → main.body.nodeIds.Nodup →
      (cellMachine method.body act).exec budget = evalMain act main budget :=
  ⟨fun _ _ h hids hkeep => exec_lowerMethod h hids hkeep budget,
    fun _ h hids => exec_lowerMain h hids budget⟩

/-- Adds up the numbers from `n` down to one, and prints what is left of `n`. -/
def sumDown : MethodDecl where
  returnType := .int
  name := "sumDown"
  params := [⟨.int, "n"⟩]
  locals := [⟨.int, "total"⟩]
  body := [
    .while 0 (.binary .lt (.intLit 0) (.var "n")) (.block [
      .ifThen 1 (.binary .lt (.var "n") (.intLit 100))
        (.expr (.assign (.var "total") (.binary .add (.var "total") (.var "n")))),
      .expr (.assign (.var "n") (.binary .sub (.var "n") (.intLit 1)))]),
    .print (.var "n")]
  result := .var "total"

theorem lowering_preserves_meaning_sumDown :
    (∃ method sc', lowerMethod "Sums" sumDown {} = .ok method sc' ∧
      (stmtsNodeIds sumDown.body).Nodup ∧
      (∀ e ∈ stmtsExprs sumDown.body ++ [sumDown.result], e.KeepsOperands ["n", "total"]) ∧
      ∀ act budget, (cellMachine method.body act).exec budget = evalMethod act sumDown budget) ∧
    ∃ method sc', lowerMain ⟨"Main", .print (.intLit 3)⟩ {} = .ok method sc' ∧
      ∀ act budget, (cellMachine method.body act).exec budget =
        evalMain act ⟨"Main", .print (.intLit 3)⟩ budget := by
  constructor
  · obtain ⟨method, sc', h⟩ : ∃ method sc', lowerMethod "Sums" sumDown {} = .ok method sc' :=
      Build.exists_of_succeeds (by cbv)
    have hids : (stmtsNodeIds sumDown.body).Nodup := by decide
    have hkeep : ∀ e ∈ stmtsExprs sumDown.body ++ [sumDown.result],
        e.KeepsOperands ["n", "total"] := by decide
    exact ⟨method, sc', h, hids, hkeep, fun act budget =>
      (lowering_preserves_meaning method {} sc' act budget).1 "Sums" sumDown h hids (Or.inl hkeep)⟩
  · obtain ⟨method, sc', h⟩ : ∃ method sc',
        lowerMain ⟨"Main", .print (.intLit 3)⟩ {} = .ok method sc' :=
      Build.exists_of_succeeds (by cbv)
    exact ⟨method, sc', h, fun act budget =>
      (lowering_preserves_meaning method {} sc' act budget).2 _ h (by decide)⟩

def selfAssigning : MethodDecl where
  returnType := .int
  name := "selfAssigning"
  params := []
  locals := [⟨.int, "x"⟩]
  body := [.ifThen 0 (.boolLit true) (.print
    (.binary .add (.assign (.var "x") (.var "x")) (.assign (.var "x") (.intLit 7))))]
  result := .var "x"

def printed (effect : Effect Value) : List Int32 :=
  match effect {} with
  | .ok _ world => world.output
  | .error _ world => world.output

def loweredBody (owner : String) (m : MethodDecl) : Body :=
  match lowerMethod owner m {} with
  | .ok method _ => method.body
  | .error .. => []

/-- **An operand that assigns a local to itself can be overwritten.** The tree prints seven, but the
join after the branch ties both values of `x` together and the code prints fourteen. -/
theorem lowering_overwrites_operand :
    Build.succeeds (lowerMethod "T" selfAssigning) {} = true ∧
      (stmtsNodeIds selfAssigning.body).Nodup ∧
      ∀ runtime, printed (evalMethod ⟨runtime, none, []⟩ selfAssigning 0) = [7] ∧
        printed ((cellMachine (loweredBody "T" selfAssigning) ⟨runtime, none, []⟩).exec 0) = [14] := by
  refine ⟨by cbv, by decide, fun runtime => ⟨by cbv, by cbv⟩⟩

end MiniJava.Ssa
