import MiniJava.Proofs.Lowering.Events

/-!
# How lowering puts code together

Lowering reads locals, emits statements for the operands that it has at hand, assigns locals, and puts
branches and loops together from their parts. This file says so once, as rules by which a scope grows,
with the events and the roles that go along. Whatever is known of lowered code follows by induction
over these rules, and nothing else has to look into the lowering of expressions and statements.
-/

namespace MiniJava.Ssa

open Ast Build List

/-- Whether a statement has the operands and the payload that its operation needs. The previous value
of an assignment to a local may be missing. -/
def Statement.isShaped (s : Statement) : Bool :=
  match s.op, s.left?, s.right?, s.payload with
  | .unify, some _, some _, .none => true
  | .this, none, none, .none => true
  | .parameter, none, none, .position _ => true
  | .arg, some _, none, .position _ => true
  | .null, none, none, .type _ => true
  | .int, none, none, .int _ => true
  | .boolean, none, none, .bool _ => true
  | .newObject, none, none, .name _ => true
  | .newIntArray, some _, none, .none => true
  | .label, none, none, .label _ => true
  | .jump, none, none, .label _ => true
  | .branchUnless, some _, none, .label _ => true
  | .call, some _, none, .call _ _ => true
  | .print, some _, none, .none => true
  | .ret, some _, none, .none => true
  | .member, some _, none, .name _ => true
  | .index, some _, some _, .none => true
  | .store, some _, none, .slot _ => true
  | .load, none, none, .slot _ => true
  | .assignVar, some _, _, .name _ => true
  | .assignMember, some _, some _, .name _ => true
  | .assignIndex, some _, some _, .index _ => true
  | .not, some _, none, .none => true
  | .binary _, some _, some _, .none => true
  | _, _, _, _ => false

inductive Statement.Shape : Op → Option StmtId → Option StmtId → Payload → Prop
  | unify (a b : StmtId) : Shape .unify (some a) (some b) .none
  | this : Shape .this none none .none
  | parameter (n : Nat) : Shape .parameter none none (.position n)
  | arg (a : StmtId) (n : Nat) : Shape .arg (some a) none (.position n)
  | null (t : TypeName) : Shape .null none none (.type t)
  | int (n : Int32) : Shape .int none none (.int n)
  | boolean (b : Bool) : Shape .boolean none none (.bool b)
  | newObject (name : String) : Shape .newObject none none (.name name)
  | newIntArray (a : StmtId) : Shape .newIntArray (some a) none .none
  | label (l : String) : Shape .label none none (.label l)
  | jump (l : String) : Shape .jump none none (.label l)
  | branchUnless (a : StmtId) (l : String) : Shape .branchUnless (some a) none (.label l)
  | call (a : StmtId) (method : String) (args : List StmtId) :
    Shape .call (some a) none (.call method args)
  | print (a : StmtId) : Shape .print (some a) none .none
  | ret (a : StmtId) : Shape .ret (some a) none .none
  | member (a : StmtId) (field : String) : Shape .member (some a) none (.name field)
  | index (a b : StmtId) : Shape .index (some a) (some b) .none
  | store (a : StmtId) (slot : Nat) : Shape .store (some a) none (.slot slot)
  | load (slot : Nat) : Shape .load none none (.slot slot)
  | assignVar (a : StmtId) (b? : Option StmtId) (x : String) : Shape .assignVar (some a) b? (.name x)
  | assignMember (a b : StmtId) (field : String) :
    Shape .assignMember (some a) (some b) (.name field)
  | assignIndex (a b i : StmtId) : Shape .assignIndex (some a) (some b) (.index i)
  | not (a : StmtId) : Shape .not (some a) none .none
  | binary (op : BinOp) (a b : StmtId) : Shape (.binary op) (some a) (some b) .none

theorem Statement.shape_of_isShaped {s : Statement} (h : s.isShaped = true) :
    Shape s.op s.left? s.right? s.payload := by
  unfold isShaped at h
  split at h
  all_goals first
    | cases h; done
    | simp only [*]; constructor

/-- Whether statements of the operation stand for themselves: they are no part of a call or of the
start of a method, and no spill code. -/
def Op.isAlone : Op → Bool
  | .arg | .call | .parameter | .load | .store => false
  | _ => true

/-- Whether a statement computes or does something by itself: it is in shape, and neither jumps nor
ties nor gives a local a value. -/
def Role.isPlain (r : Role) (op : Op) (left? right? : Option StmtId) (payload : Payload) : Bool :=
  r.admits op && r.local?.isNone && op.isAlone && !op.isJump && (r != .held || right?.isSome) &&
    Statement.isShaped { id := 0, op, left?, right?, payload }

namespace Role

variable {r : Role} {op : Op} {left? right? : Option StmtId} {payload : Payload}

theorem isPlain_iff : r.isPlain op left? right? payload = true ↔ r.admits op = true ∧
    r.local? = none ∧ op.isAlone = true ∧ op.isJump = false ∧ (r = .held → right?.isSome = true) ∧
      Statement.isShaped { id := 0, op, left?, right?, payload } = true := by
  simp [isPlain, and_assoc, imp_iff_not_or]

theorem isMerge_of_admits (h : r.admits op = true) (hr : ∀ x, r ≠ .merged x) :
    op.isMerge = false := by
  cases r with
  | merged x => exact absurd rfl (hr x)
  | temporary =>
    cases op with
    | unify | aliasOf => exact absurd h (by decide)
    | _ => rfl
  | _ =>
    simp only [admits, beq_iff_eq] at h
    rw [h]
    rfl

theorem ne_null_of_admits (h : r.admits op = true) (hr : r.local? = none) : op ≠ .null := by
  rintro rfl
  cases r <;> simp_all [admits, local?]

end Role

/-- Lowering takes one scope to another. Values that are at hand before and after are listed, and so
are what happens and the roles of the statements that are emitted. Jumps go to the given labels. -/
inductive Lowers (labels : List String) :
    List StmtId → Scope → List Event → List Role → List StmtId → Scope → Prop
  /-- Nothing is emitted. -/
  | skip {ctx out : List StmtId} (sc : Scope) (hout : out ⊆ ctx) : Lowers labels ctx sc [] [] out sc
  /-- A local is read. -/
  | read {ctx : List StmtId} {x : String} {b : StmtId} {sc : Scope}
    (hx : sc.locals.find? x = some b) :
    Lowers labels ctx sc [.read x b sc.body.length] [] (b :: ctx) sc
  /-- A statement is emitted that uses what is at hand. -/
  | emit {ctx out : List StmtId} {op : Op} {left? right? : Option StmtId} {payload : Payload}
    {r : Role} (sc : Scope) (hr : r.isPlain op left? right? payload = true)
    (hreads : ∀ o ∈ left?.toList ++ right?.toList ++ Statement.payloadOperands payload, o ∈ ctx)
    (hout : ∀ o ∈ out, o ∈ ctx ∨ o = sc.nextId ∧ op.definesValue = true) :
    Lowers labels ctx sc [] [r] out (sc.emit op left? right? payload).2
  /-- Arguments are passed and a method is called. -/
  | call {ctx values ids : List StmtId} {t : StmtId} {sc sc₁ : Scope} (method : String)
    (ha : emitArgs 0 values sc = .ok ids sc₁) (ht : t ∈ ctx) (hvalues : values ⊆ ctx) :
    Lowers labels ctx sc [] (List.replicate values.length .temporary ++ [.temporary])
      (sc₁.nextId :: ctx) (sc₁.emit .call (some t) none (.call method ids)).2
  /-- A value is computed and assigned to a local. -/
  | assign {ctx out : List StmtId} {log : List Event} {roles : List Role} {x : String}
    {old v : StmtId} {sc sc₁ : Scope} (hx : sc.locals.find? x = some old)
    (h : Lowers labels (old :: ctx) sc log roles out sc₁) (hv : v ∈ out) (hold : old ∈ out) :
    Lowers labels ctx sc (log ++ [.bind x sc₁.body.length]) (roles ++ [.assigned x]) out
      ((sc₁.emit .assignVar (some v) (some old) (.name x)).2.rebind x sc₁.nextId)
  /-- One thing is lowered after the other. -/
  | trans {ctx mid out : List StmtId} {log log' : List Event} {roles roles' : List Role}
    {sc sc₁ sc' : Scope} (h : Lowers labels ctx sc log roles mid sc₁)
    (h' : Lowers labels mid sc₁ log' roles' out sc') :
    Lowers labels ctx sc (log ++ log') (roles ++ roles') out sc'
  /-- An `if`, from its jump on. -/
  | branch {ctx : List StmtId} {log log' : List Event} {roles roles' : List Role} {id : NodeId}
    {cond : StmtId} {sc sc₂ sc₃ sc' : Scope} (hcond : cond ∈ ctx)
    (hlabels : elseLabel id ∈ labels ∧ doneLabel id ∈ labels)
    (ht : Lowers labels [] (sc.thenStart id cond) log roles [] sc₂)
    (he : Lowers labels [] (sc₂.elseStart id) log' roles' [] sc₃)
    (hj : BranchJoins id sc sc₂ sc₃ sc') :
    Lowers labels ctx sc (log ++ log') (.temporary :: (roles ++ ([.temporary, .temporary] ++
      (roles' ++ .temporary :: (sc₂.tiedWith sc₃).map .merged)))) [] sc'
  /-- A loop. -/
  | loop {ctx : List StmtId} {log log' : List Event} {roles roles' : List Role} {id : NodeId}
    {cond : StmtId} {sc sc₁ sc₂ sc' : Scope} (hlabels : startLabel id ∈ labels ∧ endLabel id ∈ labels)
    (hc : Lowers labels [] (sc.loopStart id) log roles [cond] sc₁)
    (hb : Lowers labels [] (sc₁.bodyStart id cond) log' roles' [] sc₂)
    (hj : LoopJoins id sc sc₁ sc₂ sc') :
    Lowers labels ctx sc (log ++ log') (.temporary :: (roles ++ .temporary :: (roles' ++
      ([.temporary, .temporary] ++ ((sc₂.bodyEnd id).tiedByLoop sc₁.shadow?).map .merged)))) [] sc'

variable {labels : List String} {ctx out : List StmtId} {log : List Event} {roles : List Role}
  {sc sc' : Scope}

namespace Lowers

theorem weaken {out' : List StmtId} (h : Lowers labels ctx sc log roles out sc')
    (hsub : out' ⊆ out) : Lowers labels ctx sc log roles out' sc' := by
  simpa using h.trans (.skip sc' hsub)

theorem isPrefix (h : Lowers labels ctx sc log roles out sc') : sc.body <+: sc'.body := by
  induction h with
  | skip | read => exact prefix_refl _
  | emit => exact prefix_append ..
  | call _ ha => exact (emitArgs_evolves ha).appends.isPrefix.trans (prefix_append ..)
  | assign _ _ _ _ ih => exact ih.trans (prefix_append ..)
  | trans _ _ ih ih' => exact ih.trans ih'
  | branch _ _ _ _ hj iht ihe =>
    exact (prefix_append ..).trans (hj.parts iht ihe (prefix_refl _)).1
  | loop _ _ _ hj ihc ihb =>
    exact (prefix_append ..).trans (hj.parts ihc ihb (prefix_refl _)).1

end Lowers

/-! ## Expressions -/

theorem holdRoles_eq {value id : StmtId} {later : Bool} (h : hold value later sc = .ok id sc') :
    (id = value ∧ sc' = sc ∧ holdRoles value later sc = []) ∨
      ∃ x, id = sc.nextId ∧ sc' = (sc.emit .assignVar (some value) (some value) (.name x)).2 ∧
        holdRoles value later sc = [.held] := by
  rcases hold_cases h with ⟨rfl, rfl, hfree⟩ | ⟨x, rfl, hx, rfl, rfl⟩
  · refine Or.inl ⟨rfl, rfl, ?_⟩
    unfold holdRoles
    split
    · next x hname => exact absurd (Bindings.nameOf?_eq_some hname) (hfree rfl x)
    · rfl
  · refine Or.inr ⟨x, rfl, rfl, ?_⟩
    unfold holdRoles
    split
    · rfl
    · next hname =>
      cases hname' : sc.locals.nameOf? value with
      | none => exact absurd hx (Bindings.nameOf?_eq_none hname' x)
      | some y => exact absurd hname' (hname y rfl)

theorem hold_lowers {value id : StmtId} {later : Bool} (hv : value ∈ ctx)
    (h : hold value later sc = .ok id sc') :
    Lowers labels ctx sc [] (holdRoles value later sc) (id :: ctx) sc' := by
  rcases holdRoles_eq h with ⟨rfl, rfl, hroles⟩ | ⟨x, rfl, rfl, hroles⟩
  · rw [hroles]
    exact .skip _ (List.cons_subset.2 ⟨hv, List.Subset.refl _⟩)
  · rw [hroles]
    exact .emit sc rfl (by simp [Statement.payloadOperands, hv]) (by simp [Op.definesValue]; tauto)

/-- The code of an expression follows the rules, and its value is at hand afterwards. -/
def LowersValue (labels : List String) (e : Expr) : Prop :=
  ∀ ⦃ctx : List StmtId⦄ ⦃sc : Scope⦄ ⦃id : StmtId⦄ ⦃sc' : Scope⦄, lowerExpr e sc = .ok id sc' →
    Lowers labels ctx sc (exprEvents e sc) (exprRoles e sc) (id :: ctx) sc'

theorem lowerArgs_lowers {es : List Expr} (ih : ∀ e ∈ es, LowersValue labels e) :
    ∀ {ctx : List StmtId} {sc : Scope} {ids : List StmtId}, lowerArgs es sc = .ok ids sc' →
    Lowers labels ctx sc (argsEvents es sc) (argsRoles es sc) (ids ++ ctx) sc' := by
  induction es with
  | nil =>
    intro ctx sc ids h
    obtain ⟨rfl, rfl⟩ := lowerArgs_nil_cases h
    rw [argsEvents, argsRoles]
    exact .skip _ (List.Subset.refl _)
  | cons e es ihes =>
    intro ctx sc ids h
    obtain ⟨v, sc₁, held, sc₂, rest, hv, hh, hrest, rfl⟩ := lowerArgs_cons_cases h
    have hvalue : Lowers labels ctx sc _ _ (v :: ctx) sc₁ := ih e mem_cons_self hv
    have hheld := hvalue.trans (hold_lowers mem_cons_self hh)
    have hmore := hheld.trans (ihes (fun f hf => ih f (mem_cons_of_mem _ hf)) hrest)
    rw [argsEvents_cons_of_ok hv hh, argsRoles_cons_of_ok hv hh]
    refine Lowers.weaken (by simpa using hmore) fun o ho => ?_
    simp only [cons_append, mem_cons, mem_append] at ho ⊢
    tauto

theorem isPlain_of_nodeOf? {e : Expr} {op : Op} {payload : Payload} {ids : List StmtId}
    (hn : nodeOf? e = some (op, payload)) (hlen : ids.length = e.operands.length) :
    Role.isPlain .temporary op ids[0]? ids[1]? payload = true ∧ op.definesValue = true ∧
      Statement.payloadOperands payload = [] := by
  cases e <;> cases hn <;> rcases ids with _ | ⟨a, _ | ⟨b, _ | ⟨c, ids⟩⟩⟩ <;>
    first | exact ⟨rfl, rfl, rfl⟩ | cases hlen

theorem Lowers.value {values : List StmtId} (h : Lowers labels ctx sc log roles (values ++ ctx) sc')
    (op : Op) (left? right? : Option StmtId) (payload : Payload)
    (hr : Role.isPlain .temporary op left? right? payload = true) (hdef : op.definesValue = true)
    (hreads : ∀ o ∈ left?.toList ++ right?.toList ++ Statement.payloadOperands payload,
      o ∈ values) :
    Lowers labels ctx sc log (roles ++ [.temporary]) (sc'.nextId :: ctx)
      (sc'.emit op left? right? payload).2 := by
  have hemit : Lowers labels (values ++ ctx) sc' [] [.temporary] (sc'.nextId :: ctx) _ :=
    .emit sc' hr (fun o ho => mem_append_left _ (hreads o ho)) (by simp [hdef]; tauto)
  simpa using h.trans hemit

theorem Lowers.effect {values : List StmtId} (h : Lowers labels ctx sc log roles (values ++ ctx) sc')
    (op : Op) (left? right? : Option StmtId) (payload : Payload)
    (hr : Role.isPlain .temporary op left? right? payload = true)
    (hreads : ∀ o ∈ left?.toList ++ right?.toList ++ Statement.payloadOperands payload,
      o ∈ values) {id : StmtId} (hid : id ∈ values) :
    Lowers labels ctx sc log (roles ++ [.temporary]) (id :: ctx)
      (sc'.emit op left? right? payload).2 := by
  have hemit : Lowers labels (values ++ ctx) sc' [] [.temporary] (id :: ctx) _ :=
    .emit sc' hr (fun o ho => mem_append_left _ (hreads o ho)) (by simp [hid]; tauto)
  simpa using h.trans hemit

theorem this_lowers (labels : List String) (ctx : List StmtId) (sc : Scope) :
    Lowers labels ctx sc [] [.temporary] ([sc.nextId] ++ ctx) (sc.emit .this none none .none).2 :=
  .value (.skip sc (List.Subset.refl ([] ++ ctx))) .this none none .none rfl rfl
    (by simp [Statement.payloadOperands])

/-- **The code of an expression follows the rules.** -/
theorem lowerExpr_lowers (e : Expr) : LowersValue labels e := by
  induction e using Expr.operandInduction with
  | step e ih =>
    intro ctx sc id sc' h
    cases lowersExpr h with
    | bound hx =>
      simp only [exprEvents, exprRoles, hx]
      exact .read hx
    | @field x _ _ _ hx h =>
      simp only [lowerExpr, bind_eq_ok, emit_eq_ok] at h
      obtain ⟨_, _, ⟨rfl, rfl⟩, rfl, rfl⟩ := h
      have hall := (this_lowers labels ctx sc).value .member (some sc.nextId) none (.name x) rfl rfl
        (by simp [Statement.payloadOperands])
      simpa [exprEvents, exprRoles, hx] using hall
    | @node _ op payload ids _ sc₁ hn hargs =>
      obtain ⟨hplain, hdef, hpayload⟩ := isPlain_of_nodeOf? hn (length_of_lowerArgs hargs)
      rw [exprEvents_of_nodeOf? hn, exprRoles_of_nodeOf? hn]
      refine (lowerArgs_lowers ih hargs).value op _ _ payload hplain hdef fun o ho => ?_
      rw [hpayload, append_nil] at ho
      rcases List.mem_append.1 ho with ho | ho <;>
        exact mem_of_getElem? (Option.mem_toList.1 ho)
    | @call target method args t values ids _ sc₁ sc₂ hargs ha =>
      have hlen : values.length = args.length := Nat.succ.inj (length_of_lowerArgs hargs)
      have hcall : Lowers labels (t :: values ++ ctx) sc₁ [] _ (sc₂.nextId :: ctx)
          (sc₂.emit .call (some t) none (.call method ids)).2 :=
        (Lowers.call method ha (by simp) (by simp)).weaken fun o ho => by
          simp only [cons_append, mem_cons, mem_append] at ho ⊢
          tauto
      have hall := (lowerArgs_lowers ih hargs).trans hcall
      simpa [exprEvents, argsEvents, exprRoles, argsRoles, Expr.operands, hlen] using hall
    | @assignBound x value old v _ sc₁ hx hv =>
      have hassign : Lowers labels ctx sc (exprEvents value sc ++ [.bind x sc₁.body.length])
          (exprRoles value sc ++ [.assigned x]) (id :: old :: ctx)
          ((sc₁.emit .assignVar (some id) (some old) (.name x)).2.rebind x sc₁.nextId) :=
        .assign hx (ih value (by simp [Expr.operands]) hv) (by simp) (by simp)
      simp only [exprEvents, exprRoles, hx, eventsAfter_of_ok hv]
      exact hassign.weaken (cons_subset_cons id (subset_cons_self old ctx))
    | @assignField x value v _ sc₁ hx hv =>
      have hvalue : Lowers labels ctx sc _ _ ([id, sc.nextId] ++ ctx) sc₁ :=
        (this_lowers labels ctx sc).trans (ih value (by simp [Expr.operands]) hv)
      have hall := hvalue.effect .assignMember (some sc.nextId) (some id) (.name x) rfl
        (by simp [Statement.payloadOperands]) mem_cons_self
      simpa [exprEvents, exprRoles, hx, eventsAfter_of_ok (emit_eq_ok.2 ⟨rfl, rfl⟩)]
        using hall
    | @assignMember target value name t v _ sc₁ hargs =>
      have hall : Lowers labels ctx sc _ _ (id :: ctx) _ :=
        (lowerArgs_lowers ih hargs).effect .assignMember (some t) (some id) (.name name) rfl
          (by simp [Statement.payloadOperands]) (by simp)
      simpa [exprEvents, argsEvents, exprRoles, argsRoles, Expr.operands, anyAssignment] using hall
    | @assignIndex target index value t i v _ sc₁ hargs =>
      have hall : Lowers labels ctx sc _ _ (id :: ctx) _ :=
        (lowerArgs_lowers ih hargs).effect .assignIndex (some t) (some id) (.index i) rfl
          (by simp [Statement.payloadOperands]) (by simp)
      simpa [exprEvents, argsEvents, exprRoles, argsRoles, Expr.operands, anyAssignment] using hall

/-! ## Statements -/

mutual

/-- **The code of a statement follows the rules.** -/
theorem lowerStmt_lowers (s : Stmt) (hsub : s.labels ⊆ labels) {u : Unit} {sc sc' : Scope}
    (h : lowerStmt s sc = .ok u sc') :
    Lowers labels [] sc (stmtEvents s sc) (stmtRoles s sc) [] sc' := by
  match s with
  | .block stmts =>
    rw [lowerStmt] at h
    rw [stmtEvents, stmtRoles]
    exact lowerStmts_lowers stmts hsub h
  | .ifThen id condition thenBranch =>
    rw [lowerStmt] at h
    rw [Stmt.labels, append_subset, cons_subset, cons_subset] at hsub
    obtain ⟨hsub, helse, hdone, _⟩ := hsub
    obtain ⟨cond, sc₁, sc₂, sc₃, hc, ht, hnothing, hj⟩ := branch_cases h
    have hjoins := branch_joins (lowerStmt_evolves thenBranch ht) (pure_evolves hnothing) hj
    obtain ⟨_, rfl⟩ := pure_eq_ok.1 hnothing
    have hbranch : Lowers labels [cond] sc₁ _ _ [] sc' :=
      .branch mem_cons_self ⟨helse, hdone⟩ (lowerStmt_lowers thenBranch hsub ht)
        (.skip _ (nil_subset _)) hjoins
    simpa [stmtEvents, stmtRoles, eventsAfter_of_ok hc, eventsAfter_of_ok ht] using
      (lowerExpr_lowers condition hc).trans hbranch
  | .ifElse id condition thenBranch elseBranch =>
    rw [lowerStmt] at h
    rw [Stmt.labels, append_subset, cons_subset, append_subset] at hsub
    obtain ⟨hthen, helse, hbranch, hdone⟩ := hsub
    obtain ⟨cond, sc₁, sc₂, sc₃, hc, ht, he, hj⟩ := branch_cases h
    have hjoins := branch_joins (lowerStmt_evolves thenBranch ht) (lowerStmt_evolves elseBranch he) hj
    have hbranch : Lowers labels [cond] sc₁ _ _ [] sc' :=
      .branch mem_cons_self ⟨helse, hdone mem_cons_self⟩
        (lowerStmt_lowers thenBranch hthen ht) (lowerStmt_lowers elseBranch hbranch he) hjoins
    simpa [stmtEvents, stmtRoles, eventsAfter_of_ok hc, eventsAfter_of_ok ht,
      eventsAfter_of_ok he] using (lowerExpr_lowers condition hc).trans hbranch
  | .while id condition body =>
    rw [lowerStmt] at h
    rw [Stmt.labels, cons_subset, append_subset] at hsub
    obtain ⟨hstart, hbody, hend⟩ := hsub
    obtain ⟨cond, sc₁, sc₂, hc, hb, rfl⟩ := loop_cases h
    have hloop : Lowers labels [] sc _ _ [] _ :=
      .loop ⟨hstart, hend mem_cons_self⟩ (lowerExpr_lowers condition hc)
        (lowerStmt_lowers body hbody hb)
        (loop_joins (lowerExpr_evolves hc) (lowerStmt_evolves body hb))
    simpa [stmtEvents, stmtRoles, eventsAfter_of_ok hc, eventsAfter_of_ok hb] using hloop
  | .print value =>
    simp only [lowerStmt, bind_eq_ok, emit_eq_ok, pure_eq_ok] at h
    obtain ⟨v, sc₁, hv, _, _, ⟨_, rfl⟩, _, rfl⟩ := h
    have hvalue : Lowers labels [] sc _ _ ([v] ++ []) sc₁ := lowerExpr_lowers value hv
    rw [stmtEvents, stmtRoles]
    exact (hvalue.effect .print (some v) none .none rfl (by simp [Statement.payloadOperands])
      mem_cons_self).weaken (nil_subset _)
  | .expr value =>
    simp only [lowerStmt, bind_eq_ok, pure_eq_ok] at h
    obtain ⟨v, sc₁, hv, _, rfl⟩ := h
    rw [stmtEvents, stmtRoles]
    exact (lowerExpr_lowers value hv).weaken (nil_subset _)

theorem lowerStmts_lowers (ss : List Stmt) (hsub : stmtsLabels ss ⊆ labels) {u : Unit}
    {sc sc' : Scope} (h : lowerStmts ss sc = .ok u sc') :
    Lowers labels [] sc (stmtsEvents ss sc) (stmtsRoles ss sc) [] sc' := by
  match ss with
  | [] =>
    obtain ⟨_, rfl⟩ := pure_eq_ok.1 (by rwa [lowerStmts] at h)
    rw [stmtsEvents, stmtsRoles]
    exact .skip _ (nil_subset _)
  | s :: ss =>
    rw [lowerStmts] at h
    rw [stmtsLabels, append_subset] at hsub
    obtain ⟨_, sc₁, h₁, h₂⟩ := bind_eq_ok.1 h
    rw [stmtsEvents, stmtsRoles, eventsAfter_of_ok h₁, eventsAfter_of_ok h₁]
    exact (lowerStmt_lowers s hsub.1 h₁).trans (lowerStmts_lowers ss hsub.2 h₂)

end

/-- **The code of a method follows the rules** from its body on. -/
theorem lowerBody_lowers {m : MethodDecl} {result : StmtId} {sc sc₁ sc₂ : Scope}
    (h : lowerStmts m.body sc = .ok () sc₁) (hr : lowerExpr m.result sc₁ = .ok result sc₂) :
    Lowers (stmtsLabels m.body) [] sc (stmtsEvents m.body sc ++ exprEvents m.result sc₁)
      (stmtsRoles m.body sc ++ exprRoles m.result sc₁ ++ [.temporary]) []
      (sc₂.emit .ret (some result) none .none).2 := by
  have hresult : Lowers (stmtsLabels m.body) [] sc₁ _ _ ([result] ++ []) sc₂ :=
    lowerExpr_lowers m.result hr
  have hall := (lowerStmts_lowers m.body (List.Subset.refl _) h).trans hresult
  exact (hall.effect .ret (some result) none .none rfl (by simp [Statement.payloadOperands])
    mem_cons_self).weaken (nil_subset _)

end MiniJava.Ssa
