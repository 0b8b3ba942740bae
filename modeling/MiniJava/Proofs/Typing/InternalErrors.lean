import MiniJava.Proofs.Lowering.References
import MiniJava.Proofs.Lowering.Roles
import MiniJava.Proofs.Soundness.Statements
import MiniJava.Proofs.Typing.Programs

/-!
# Errors that no source causes

Some errors of the check are about the code and not about the source: an operand without a type, a
parameter that the method does not have, a tie of values of two types. The check looks for them, but
lowered code gives no occasion. Its statements have the operands that they need, and these come first.
What a local owns has the type that the local is declared with, as one sees from the first statement
on, so ties are between values of one type. All this is also true of the part of an ill-typed program
that stands before its error.
-/

namespace MiniJava

open Ast Ssa List Statement

variable {method : String} {a b : StmtId} {e : TypeError} {m : Method} {ast : Ast.Program}
  {p : Ssa.Program}

def TypeErrorKind.isInternal : TypeErrorKind → Bool
  | unifyMismatch | untypedOperand | parameterOutsideMethod => true
  | _ => false

namespace TypeContext

/-! ## Blame -/

section Blame

variable {α β : Type} {cx : TypeContext} {mx : MethodContext} {typed : TypedStmts} {s : Statement}
  {o : StmtId} {fault : TypeFault}

/-- A computation that fails, if at all, with an error about the source. -/
def BlamesSource (x : Except TypeFault α) : Prop :=
  ∀ fault, x = .error fault → fault.kind.isInternal = false

theorem BlamesSource.ok (a : α) : BlamesSource (.ok a) := by
  intro fault h
  cases h

theorem BlamesSource.error (h : fault.kind.isInternal = false) :
    BlamesSource (.error fault : Except TypeFault α) := by
  intro fault' h'
  cases h'
  exact h

theorem BlamesSource.bind {x : Except TypeFault α} {f : α → Except TypeFault β}
    (hx : BlamesSource x) (hf : ∀ a, x = .ok a → BlamesSource (f a)) : BlamesSource (x >>= f) := by
  intro fault h
  cases x with
  | error fault' =>
    cases h
    exact hx _ rfl
  | ok a => exact hf a rfl fault h

theorem BlamesSource.ite {x y : Except TypeFault α} {p : Prop} [Decidable p] (hx : BlamesSource x)
    (hy : ¬ p → BlamesSource y) : BlamesSource (if p then x else y) := by
  split
  · exact hx
  · next hp => exact hy hp

theorem blamesSource_expect (use : Use) (type : TypeId) : BlamesSource (cx.expect use type) :=
  .ite (.ok ()) fun _ => .error (by cases use <;> rfl)

theorem blamesSource_expectObject (type : TypeId) : BlamesSource (cx.expectObject type) :=
  .ite (.ok ()) fun _ => .error rfl

theorem blamesSource_fieldType (type : TypeId) (field : String) :
    BlamesSource (cx.fieldType type field) := by
  refine (blamesSource_expectObject type).bind fun _ _ => ?_
  cases cx.fieldType? type field with
  | some t => exact .ok t
  | none => exact .error rfl

theorem blamesSource_operand (h : ∃ t, typed.type? o = some t) :
    BlamesSource (typed.operand (some o)) := by
  obtain ⟨t, ht⟩ := h
  have hok : typed.operand (some o) = .ok t := operand_eq_ok.2 ht
  rw [hok]
  exact .ok t

theorem blamesSource_checkArgs {args : List (StmtId × TypeId)} {n : Nat}
    (h : ∀ arg ∈ args, ∃ t, typed.type? arg.1 = some t) :
    BlamesSource (cx.checkArgs typed method n args) := by
  induction args generalizing n with
  | nil => exact .ok ()
  | cons arg args ih =>
    rw [checkArgs]
    refine (blamesSource_operand (h arg mem_cons_self)).bind fun t _ => ?_
    exact .ite (ih fun arg harg => h arg (mem_cons_of_mem _ harg)) fun _ => .error rfl

/-! ## Rules -/

/-- What the check relies on at a statement: its operands are there and have types, the parameter that
it takes in exists, and what it ties has one type. -/
structure Ready (mx : MethodContext) (ty : StmtId → Option TypeId) (s : Statement) : Prop where
  shaped : s.isShaped = true
  typed : ∀ o ∈ s.operands, ∃ t, ty o = some t
  previous : s.op = .assignVar → s.right? ≠ none
  notReload : s.op ≠ .load
  position : s.op = .parameter → ∃ k < mx.params.length, s.payload = .position k
  tied : s.op = .unify → s.left?.bind ty = s.right?.bind ty

namespace Ready

section

variable (h : Ready mx typed.type? s)
include h

theorem left (ho : s.left? = some o) : BlamesSource (typed.operand s.left?) := by
  rw [ho]
  exact blamesSource_operand (h.typed o (by simp [Statement.operands, ho]))

theorem right (ho : s.right? = some o) : BlamesSource (typed.operand s.right?) := by
  rw [ho]
  exact blamesSource_operand (h.typed o (by simp [Statement.operands, ho]))

theorem blamesSource_unify (hop : s.op = .unify) (ha : s.left? = some a) (hb : s.right? = some b) :
    BlamesSource (cx.rule mx typed s) := by
  rw [rule, hop]
  refine (h.left ha).bind fun l hl => (h.right hb).bind fun r hr => .ite (.ok l) fun hne => ?_
  rw [operand_eq_ok] at hl hr
  exact absurd (Option.some.inj (hl.symm.trans ((h.tied hop).trans hr))) hne

theorem blamesSource_callRule {args : List StmtId} (ha : s.left? = some a)
    (hcall : s.payload = .call method args) :
    BlamesSource (cx.callRule typed s) := by
  have hcall? : s.call? = some (method, args) := by rw [Statement.call?, hcall]
  rw [callRule, hcall?]
  refine (h.left ha).bind fun target _ => (blamesSource_expectObject target).bind fun _ _ => ?_
  dsimp only
  cases cx.method? target method with
  | none => exact .error rfl
  | some m =>
    refine .ite ((blamesSource_checkArgs fun arg harg => ?_).bind fun _ _ => .ok _) fun _ => .error rfl
    have hmem : arg.1 ∈ args := (of_mem_zip harg).1
    exact h.typed arg.1 (by simp [Statement.operands, Statement.payloadOperands, hcall, hmem])

theorem blamesSource_binaryRule (op : BinOp) (ha : s.left? = some a) (hb : s.right? = some b) :
    BlamesSource (cx.binaryRule typed s op) := by
  have hexpect : ∀ use use' : Use, ∀ t : TypeId, BlamesSource (do
      cx.expect use (← typed.operand s.left?)
      cx.expect use' (← typed.operand s.right?)
      return t) := fun use use' t =>
    (h.left ha).bind fun l _ => (blamesSource_expect use l).bind fun _ _ =>
      (h.right hb).bind fun r _ => (blamesSource_expect use' r).bind fun _ _ => .ok t
  cases op with
  | and | or | lt | le | gt | ge | add | sub | mul | div | mod => exact hexpect _ _ _
  | eq | ne => exact (h.left ha).bind fun _ _ => (h.right hb).bind fun _ _ => .ok _

/-- **Where the check can rely on the code, it blames the source.** -/
theorem blamesSource_rule : BlamesSource (cx.rule mx typed s) := by
  have hshape := Statement.shape_of_isShaped h.shaped
  generalize hop : s.op = op at hshape
  generalize hleft : s.left? = left? at hshape
  generalize hright : s.right? = right? at hshape
  generalize hpayload : s.payload = payload at hshape
  -- One case per operation, with the operands that it needs.
  cases hshape with
  | unify a b => exact h.blamesSource_unify hop hleft hright
  | this =>
    rw [rule, hop]
    dsimp only
    cases mx.this? with
    | some t => exact .ok t
    | none => exact .error rfl
  | parameter n =>
    obtain ⟨k, hk, hpos⟩ := h.position hop
    have hposition : s.position? = some k := by rw [Statement.position?, hpos]
    rw [rule, hop, hposition]
    dsimp only [Option.getD_some]
    rw [getElem?_eq_getElem hk]
    exact .ok _
  | arg a n =>
    rw [rule, hop]
    exact h.left hleft
  | store a slot =>
    rw [rule, hop]
    exact h.left hleft
  | null t =>
    rw [rule, hop]
    exact .error rfl
  | int | boolean | label | jump =>
    rw [rule, hop]
    exact .ok _
  | newObject name =>
    rw [rule, hop]
    dsimp only
    cases cx.types.lookup? (s.name?.getD "") with
    | some t => exact .ite (.ok t) fun _ => .error rfl
    | none => exact .error rfl
  | newIntArray a | branchUnless a | print a | not a =>
    rw [rule, hop]
    exact (h.left hleft).bind fun t _ => (blamesSource_expect _ t).bind fun _ _ => .ok _
  | call a method args =>
    rw [rule, hop]
    exact h.blamesSource_callRule hleft hpayload
  | ret a =>
    rw [rule, hop]
    exact (h.left hleft).bind fun t _ => .ite (.ok _) fun _ => .error rfl
  | member a field =>
    rw [rule, hop]
    exact (h.left hleft).bind fun t _ => .ite (.ok _) fun _ => blamesSource_fieldType t _
  | index a b =>
    rw [rule, hop]
    exact (h.left hleft).bind fun l _ => (blamesSource_expect _ l).bind fun _ _ =>
      (h.right hright).bind fun r _ => (blamesSource_expect _ r).bind fun _ _ => .ok _
  | load slot => exact absurd hop h.notReload
  | assignVar a b? x =>
    obtain ⟨b, hb⟩ := Option.ne_none_iff_exists'.1 (h.previous hop)
    rw [rule, hop]
    exact (h.right hb).bind fun r _ => (h.left hleft).bind fun l _ =>
      .ite (.ok r) fun _ => .error rfl
  | assignMember a b field =>
    rw [rule, hop]
    exact (h.left hleft).bind fun l _ => (blamesSource_fieldType l _).bind fun t _ =>
      (h.right hright).bind fun r _ => .ite (.ok t) fun _ => .error rfl
  | assignIndex a b i =>
    have hindex : s.index? = some i := by rw [Statement.index?, hpayload]
    have hi : i ∈ s.operands := by simp [Statement.operands, Statement.payloadOperands, hpayload]
    rw [rule, hop, hindex]
    exact (h.left hleft).bind fun l _ => (blamesSource_expect _ l).bind fun _ _ =>
      (h.right hright).bind fun r _ => (blamesSource_expect _ r).bind fun _ _ =>
        (blamesSource_operand (h.typed i hi)).bind fun t _ =>
          (blamesSource_expect _ t).bind fun _ _ => .ok _
  | binary op a b =>
    rw [rule, hop]
    exact h.blamesSource_binaryRule op hleft hright

end

end Ready

theorem isInternal_of_typeOf_error (h : Ready mx typed.type? s)
    (he : cx.typeOf mx typed s = .error (.type e)) : e.fault.kind.isInternal = false := by
  rw [typeOf] at he
  split at he
  · next decl _ _ => cases hdecl : cx.types.resolve decl <;> rw [hdecl] at he <;> cases he
  · cases hrule : cx.rule mx typed s with
    | ok t =>
      rw [hrule] at he
      cases he
    | error fault =>
      rw [hrule] at he
      cases he
      exact h.blamesSource_rule fault hrule

end Blame

/-! ## Types of locals -/

/-- The code of a method with these parameters and locals. The check knows the types that the parameters
are declared with. -/
structure Emitted (cx : TypeContext) (mx : MethodContext) (params locals : List VarDecl) (base : Nat)
    (roles : List Role) (sc : Scope) : Prop extends sc.HasRoles params locals base roles where
  names : ((params ++ locals).map (·.name)).Nodup
  signature : List.Forall₂ (fun d t => cx.types.resolve d.type = .ok t) params mx.params
  ordered : sc.body.Ordered
  shaped : sc.body.Shaped

def HasTypeOf (cx : TypeContext) (decls : List VarDecl) (ty : StmtId → Option TypeId) (x : String)
    (id : StmtId) : Prop :=
  ∃ d ∈ decls, d.name = x ∧ ∃ t, ty id = some t ∧ cx.types.resolve d.type = .ok t

def TypedBelow (cx : TypeContext) (mx : MethodContext) (ty : StmtId → Option TypeId) (body : Body)
    (n : Nat) : Prop :=
  ∀ i < n, ∀ s, body[i]? = some s → ∃ t, ty s.id = some t ∧ cx.Follows mx ty s t

section Locals

variable {cx : TypeContext} {mx : MethodContext} {params locals : List VarDecl} {base : Nat}
  {roles : List Role} {sc : Scope} {ty : StmtId → Option TypeId} {x : String} {n i : Nat}
  {s : Statement} {o o' : StmtId}

theorem HasTypeOf.eq {decls : List VarDecl} (hnames : (decls.map (·.name)).Nodup)
    (h : cx.HasTypeOf decls ty x o) (h' : cx.HasTypeOf decls ty x o') : ty o = ty o' := by
  obtain ⟨d, hd, hx, t, ht, hdecl⟩ := h
  obtain ⟨d', hd', hx', t', ht', hdecl'⟩ := h'
  obtain rfl := inj_on_of_nodup_map hnames hd hd' (hx.trans hx'.symm)
  rw [hdecl] at hdecl'
  cases hdecl'
  rw [ht, ht']

namespace Emitted

section

variable (h : cx.Emitted mx params locals base roles sc)
include h

theorem exists_earlier (hs : sc.body[i]? = some s) (ho : o ∈ s.operands) :
    ∃ j < i, o = base + j ∧ ∃ t, sc.body[j]? = some t ∧ t.id = o := by
  obtain ⟨t, ht, rfl⟩ := h.ordered i s hs o ho
  obtain ⟨j, hj⟩ := mem_iff_getElem?.1 ht
  rw [getElem?_take] at hj
  split at hj
  · next hlt => exact ⟨j, hlt, h.owned.id_eq hj, t, hj, rfl⟩
  · cases hj

theorem exists_role (hs : sc.body[i]? = some s) :
    ∃ r, roles[i]? = some r ∧ r.Fits params locals base roles s :=
  exists_left_of_getElem? h.fits hs

theorem resolve_of_incoming (hty : cx.TypedBelow mx ty sc.body n) {k : Nat} (hk : k < n)
    {d : VarDecl} (hd : params[k]? = some d) (hr : roles[k]? = some (.incoming k)) {t : TypeId}
    (ht : ty (base + k) = some t) : cx.types.resolve d.type = .ok t := by
  have hlt : k < sc.body.length := h.length_eq ▸ lt_of_getElem? hr
  have hs := getElem?_eq_getElem hlt
  obtain ⟨r, hr', hop, hdetails⟩ := h.exists_role hs
  obtain rfl := Option.mem_unique hr' hr
  obtain ⟨t', ht', hfollows⟩ := hty k hk _ hs
  rw [h.owned.id_eq hs, ht] at ht'
  cases ht'
  have hposition : sc.body[k].position? = some k := by rw [Statement.position?, hdetails.2]
  rw [Follows, eq_of_beq hop, hposition] at hfollows
  have hparam : mx.params[k]? = some t := hfollows
  obtain ⟨d', hd', hdecl⟩ := exists_left_of_getElem? h.signature hparam
  rw [hd] at hd'
  cases hd'
  exact hdecl

theorem hasTypeOf_step (hty : cx.TypedBelow mx ty sc.body n) (hi : i < n)
    (hs : sc.body[i]? = some s) (hx : Role.owners base roles (base + i) = some x)
    (ih : ∀ j < i, Role.owners base roles (base + j) = some x → cx.HasTypeOf (params ++ locals) ty x (base + j)) :
    cx.HasTypeOf (params ++ locals) ty x (base + i) := by
  obtain ⟨t, ht, hfollows⟩ := hty i hi s hs
  rw [h.owned.id_eq hs] at ht
  -- A value that the statement gets its type from, and that the same local owns.
  have hback : ∀ o ∈ s.operands, Role.owners base roles o = some x → ty o = some t →
      cx.HasTypeOf (params ++ locals) ty x (base + i) := by
    intro o ho hown hto
    obtain ⟨j, hj, rfl, _⟩ := h.exists_earlier hs ho
    obtain ⟨d, hd, hdx, t', ht', hdecl⟩ := ih j hj hown
    rw [hto] at ht'
    cases ht'
    exact ⟨d, hd, hdx, t, ht, hdecl⟩
  obtain ⟨r, hr, hop, hdetails⟩ := h.exists_role hs
  rw [Role.owners_add, hr] at hx
  cases r with
  | incoming | held | temporary => cases hx
  | param y =>
    cases hx
    obtain ⟨k, d, hk, rfl, hright, hin⟩ := hdetails
    rw [Follows, eq_of_beq hop] at hfollows
    have hbase : ty (base + k) = some t := by simpa [hright] using hfollows.1
    obtain ⟨j, hj, hkj, _⟩ := h.exists_earlier hs
      (o := base + k) (by simp [Statement.operands, hright])
    obtain rfl := Nat.add_left_cancel hkj
    exact ⟨d, mem_append_left _ (mem_of_getElem? hk), rfl, t, ht,
      h.resolve_of_incoming hty (Nat.lt_trans hj hi) hk hin hbase⟩
  | initial y =>
    cases hx
    obtain ⟨d, hd, rfl, hpayload⟩ := hdetails
    rw [Follows, eq_of_beq hop] at hfollows
    obtain ⟨decl, hdecl, hresolve⟩ := hfollows
    rw [hpayload] at hdecl
    cases hdecl
    exact ⟨d, mem_append_right _ hd, rfl, t, ht, hresolve⟩
  | assigned y =>
    cases hx
    obtain ⟨o, hright, hown⟩ := hdetails
    rw [Follows, eq_of_beq hop] at hfollows
    exact hback o (by simp [Statement.operands, hright]) hown (by simpa [hright] using hfollows.1)
  | merged y =>
    cases hx
    have hop : s.op = .unify := eq_of_beq hop
    rw [Follows, hop] at hfollows
    obtain ⟨o, ho, hto⟩ := Option.bind_eq_some_iff.1 hfollows.1
    have hmem : o ∈ s.mergeOperands := by simp [Statement.mergeOperands, hop, ho]
    obtain ⟨_, hown, _⟩ := h.owned.merges s (mem_of_getElem? hs) o hmem
    rw [h.owned.id_eq hs, Role.owners_add, hr] at hown
    exact hback o (by simp [Statement.operands, ho]) hown hto

/-- **What a local owns has the type that the local is declared with.** -/
theorem hasTypeOf (hty : cx.TypedBelow mx ty sc.body n) (hi : i < n)
    (hx : Role.owners base roles (base + i) = some x) :
    cx.HasTypeOf (params ++ locals) ty x (base + i) := by
  induction i using Nat.strong_induction_on with
  | _ i ih =>
    obtain ⟨j, r, hj, hr, _⟩ := Role.exists_of_owners hx
    obtain rfl := Nat.add_left_cancel hj
    have hlt : i < sc.body.length := h.length_eq ▸ lt_of_getElem? hr
    exact h.hasTypeOf_step hty hi (getElem?_eq_getElem hlt) hx fun j hj =>
      ih j hj (Nat.lt_trans hj hi)

/-! ## Code that the check can rely on -/

/-- **The check can rely on the code of a method** as far as it has come. -/
theorem ready (hty : cx.TypedBelow mx ty sc.body i) (hs : sc.body[i]? = some s) :
    Ready mx ty s := by
  obtain ⟨r, hr, hop, hdetails⟩ := h.exists_role hs
  have hparams := h.signature.length_eq
  refine ⟨h.shaped s (mem_of_getElem? hs), fun o ho => ?_, fun hassign => ?_, fun hload => ?_,
    fun hparam => ?_, fun hunify => ?_⟩
  · obtain ⟨j, hj, _, t, ht, rfl⟩ := h.exists_earlier hs ho
    obtain ⟨type, htype, _⟩ := hty j hj t ht
    exact ⟨type, htype⟩
  · rw [hassign] at hop
    cases r with
    | incoming | initial | merged | temporary => cases hop
    | param y =>
      obtain ⟨_, _, _, _, hright, _⟩ := hdetails
      simp [hright]
    | assigned y =>
      obtain ⟨_, hright, _⟩ := hdetails
      simp [hright]
    | held => exact Option.isSome_iff_ne_none.1 hdetails
  · rw [hload] at hop
    cases r <;> cases hop
  · rw [hparam] at hop
    cases r with
    | incoming k => exact ⟨k, hparams ▸ hdetails.1, hdetails.2⟩
    | _ => cases hop
  · rw [hunify] at hop
    cases r with
    | merged x =>
      have hsame : ∀ o ∈ s.mergeOperands, cx.HasTypeOf (params ++ locals) ty x o := by
        intro o ho
        obtain ⟨_, hown, _⟩ := h.owned.merges s (mem_of_getElem? hs) o ho
        rw [h.owned.id_eq hs, Role.owners_add, hr] at hown
        obtain ⟨j, hj, rfl, _⟩ := h.exists_earlier hs (of_mem_mergeOperands ho).2
        exact h.hasTypeOf hty hj hown
      have hshape := shape_of_isShaped (h.shaped s (mem_of_getElem? hs))
      obtain ⟨a, b, ha, hb⟩ : ∃ a b, s.left? = some a ∧ s.right? = some b := by
        rw [hunify] at hshape
        generalize s.left? = left?, s.right? = right?, s.payload = payload at hshape
        cases hshape with
        | unify a b => exact ⟨a, b, rfl, rfl⟩
      rw [ha, hb]
      exact HasTypeOf.eq h.names (hsame a (by simp [mergeOperands, hunify, ha]))
        (hsame b (by simp [mergeOperands, hunify, hb]))
    | _ => cases hop

theorem isInternal_of_sweep_error (he : (sweep (cx.checkStmt mx) [] sc.body).2 = .error (.type e)) :
    e.fault.kind.isInternal = false := by
  obtain ⟨before, s, after, before', typed, hbody, hbefore, hs⟩ := exists_of_sweep_error he
  have hdistinct : Body.DistinctIds before := by
    have hall := h.owned.distinct
    rw [hbody, Body.DistinctIds, map_append] at hall
    exact (nodup_append.1 hall).1
  obtain ⟨_, hannotates⟩ := annotates_of_sweep hdistinct (fun _ _ => rfl) hbefore
  have hty : cx.TypedBelow mx typed.type? sc.body before.length := by
    intro i hi t ht
    rw [hbody, getElem?_append_left hi] at ht
    obtain ⟨_, _, type, htype, hfollows, _⟩ :=
      exists_right_of_forall₂ hannotates (mem_of_getElem? ht)
    exact ⟨type, htype, hfollows⟩
  have hat : sc.body[before.length]? = some s := by simp [hbody]
  have hfail : cx.typeOf mx typed s = .error (.type e) := by
    rw [checkStmt] at hs
    split at hs
    · cases hs
    · next heq =>
      cases hs
      exact heq
  exact isInternal_of_typeOf_error (h.ready hty hat) hfail

end

end Emitted

end Locals

end TypeContext

/-! ## Programs -/

namespace Ssa

open TypeContext

theorem LoweredMethod.emitted {owner : String} {bound : StmtId} {decl : MethodDecl}
    (h : LoweredMethod owner bound decl m) {cx : TypeContext} {mx : MethodContext}
    (hsig : List.Forall₂ (fun d t => cx.types.resolve d.type = .ok t) m.params mx.params) :
    ∃ sc base roles, sc.body = m.body ∧ cx.Emitted mx decl.params decl.locals base roles sc := by
  obtain ⟨sc, sc', hm, _⟩ := h
  obtain ⟨last, hbody, hlogs⟩ := lowerMethod_logs hm
  have hparams : m.params = decl.params := by rw [lowerMethod_head hm]
  obtain ⟨_, hsettled, _, hcode, _⟩ := lowerMethod_settled hm
  rw [hcode] at hbody
  exact ⟨last, _, _, hbody.trans hcode.symm, hlogs.toHasRoles, nodup_names_of_lowerMethod hm, hparams ▸ hsig,
    hbody ▸ hsettled.ordered, hbody ▸ hsettled.code.shapedInto.shaped⟩

theorem Lowered.emitted_main (h : Lowered ast p) (cx : TypeContext) :
    ∃ sc base roles, sc.body = p.main.body ∧
      cx.Emitted (cx.methodContext p.main) [] [] base roles sc := by
  obtain ⟨sc, sc', hm, _⟩ := h.main
  obtain ⟨last, hbody, hroles⟩ := lowerMain_hasRoles hm
  have hparams : p.main.paramTypes = [] := by rw [lowerMain_head hm]
  obtain ⟨_, hsettled, _, hcode, _⟩ := lowerMain_settled hm
  rw [hcode] at hbody
  refine ⟨last, _, _, hbody.trans hcode.symm, hroles, nodup_nil, ?_, hbody ▸ hsettled.ordered,
    hbody ▸ hsettled.code.shapedInto.shaped⟩
  rw [methodContext, hparams]
  exact .nil

theorem Lowered.emitted (h : Lowered ast p) {cx : TypeContext} (hcx : p.typeContext = .ok cx)
    (hm : m ∈ { p with classes := cx.classes }.methods) :
    ∃ params locals sc base roles, sc.body = m.body ∧
      cx.Emitted (cx.methodContext m) params locals base roles sc := by
  rcases mem_cons.1 hm with rfl | hm
  · exact ⟨[], [], h.emitted_main cx⟩
  · obtain ⟨c', hc', hm⟩ := mem_flatMap.1 hm
    obtain ⟨c, hc, hresolve⟩ := exists_left_of_forall₂ (Program.typeContext_eq_ok.1 hcx).2 hc'
    obtain ⟨fields, methods, _, hmethods, rfl⟩ := ClassDef.resolve_eq_ok.1 hresolve
    obtain ⟨m₀, hm₀, hresolve⟩ := exists_left_of_forall₂ hmethods hm
    obtain ⟨paramTypes, returnType, hparams, _, rfl⟩ := Method.resolve_eq_ok.1 hresolve
    obtain ⟨_, _, decl, _, hlowered⟩ := h.exists_decl hc hm₀
    exact ⟨decl.params, decl.locals, hlowered.emitted hparams⟩

theorem Program.exists_method_of_check (h : p.check.2 = .error (.type e)) :
    ∃ cx, p.typeContext = .ok cx ∧
      ∃ m ∈ { p with classes := cx.classes }.methods,
        (Ssa.sweep (cx.checkStmt (cx.methodContext m)) [] m.body).2 = .error (.type e) := by
  rw [Program.check] at h
  split at h
  · cases h
  · next cx hcx =>
    have hsweep : ({ p with classes := cx.classes }.sweep (fun _ => cx.checkMethod) ()).2 =
        .error (.type e) := by
      split at h
      · cases h
      · next heq =>
        rw [heq]
        exact h
    have hmethods := Program.sweep_methods (f := fun _ => cx.checkMethod) ()
      { p with classes := cx.classes }
    rw [← congrArg Prod.snd hmethods] at hsweep
    obtain ⟨before, m, after, _, _, hall, _, hm⟩ := exists_of_sweep_error hsweep
    refine ⟨cx, hcx, m, hall ▸ by simp, ?_⟩
    change (Ssa.sweep (cx.checkStmt (cx.methodContext m)) [] m.body).2.map (fun _ => ()) = _ at hm
    cases hresult : (Ssa.sweep (cx.checkStmt (cx.methodContext m)) [] m.body).2 with
    | ok typed =>
      rw [hresult] at hm
      cases hm
    | error e' =>
      rw [hresult] at hm
      cases hm
      rfl

theorem Program.typed_of_check (h : p.check.2 = .ok ()) (hm : m ∈ p.check.1.methods)
    {s : Statement} (hs : s ∈ m.body) :
    s.type?.isSome = true ∧ (s.op = .assignVar → s.right? = none) := by
  obtain ⟨cx, hchecked⟩ := checked_of_check (p := p) (Prod.ext rfl h)
  obtain ⟨m₀, _, hm₀⟩ := exists_left_of_forall₂ hchecked.code.methods hm
  obtain ⟨body', typed, hsweep, rfl⟩ := checkMethod_eq_ok.1 hm₀
  obtain ⟨_, hall⟩ := forall₂_of_sweep_ok (I := fun _ => True)
    (R := fun s s' => ∃ type, s' = annotate s type) hsweep trivial fun _ _ _ _ _ _ hstmt => by
      obtain ⟨type, _, hannotate, _⟩ := checkStmt_eq_ok.1 hstmt
      exact ⟨trivial, type, hannotate⟩
  obtain ⟨s₀, _, type, rfl⟩ := exists_left_of_forall₂ hall hs
  exact ⟨rfl, fun hop => if_pos hop⟩

end Ssa

/-- **No error of the check is about the code.** The check of a lowered program, well typed or not, never
fails at a tie of two types, at an operand without a type or at a parameter that is not there; and if it
succeeds, every statement has a type, and no assignment names a previous value. -/
theorem internal_errors_unreachable {ast : Ast.Program} {p : Ssa.Program}
    (h : Program.ofAst ast = .ok p) :
    (∀ e : TypeError, p.check.2 = .error (.type e) →
      e.fault.kind ∉ [.unifyMismatch, .untypedOperand, .parameterOutsideMethod]) ∧
    (p.check.2 = .ok () → ∀ m ∈ p.check.1.methods, ∀ s ∈ m.body,
      s.type?.isSome = true ∧ (s.op = .assignVar → s.right? = none)) := by
  refine ⟨fun e he hmem => ?_, fun hok m hm s hs => Program.typed_of_check hok hm hs⟩
  obtain ⟨cx, hcx, m, hm, hfail⟩ := Program.exists_method_of_check he
  obtain ⟨params, locals, sc, base, roles, hbody, hemitted⟩ := (lowered_of_ofAst h).emitted hcx hm
  rw [← hbody] at hfail
  have hkind := hemitted.isInternal_of_sweep_error hfail
  simp only [mem_cons, not_mem_nil, or_false] at hmem
  rcases hmem with hmem | hmem | hmem <;> rw [hmem] at hkind <;> cases hkind

/-- The check of `counters` succeeds with a field as the target of its assignment, and it blames the
source if the target is the length of an array. -/
theorem internal_errors_unreachable_counters :
    (∃ p, Program.ofAst (counters (.var "n")) = .ok p ∧ p.check.2 = .ok () ∧
      ∀ m ∈ p.check.1.methods, ∀ s ∈ m.body,
        s.type?.isSome = true ∧ (s.op = .assignVar → s.right? = none)) ∧
    ∃ p e, Program.ofAst (counters (.member (.var "a") "length")) = .ok p ∧
      p.check.2 = .error (.type e) ∧ e.fault.kind = .unknownField ∧
      e.fault.kind ∉ [.unifyMismatch, .untypedOperand, .parameterOutsideMethod] := by
  constructor
  · obtain ⟨p, hp⟩ : ∃ p, Program.ofAst (counters (.var "n")) = .ok p :=
      exists_eq_ok_of_isOk (by decide +kernel)
    have hcheck : (Program.ofAst (counters (.var "n"))).toOption.map (·.check.2) = some (.ok ()) := by
      decide +kernel
    rw [hp] at hcheck
    have hok := Option.some.inj hcheck
    exact ⟨p, hp, hok, (internal_errors_unreachable hp).2 hok⟩
  · obtain ⟨p, hp⟩ : ∃ p, Program.ofAst (counters (.member (.var "a") "length")) = .ok p :=
      exists_eq_ok_of_isOk (by decide +kernel)
    have hcheck : (Program.ofAst (counters (.member (.var "a") "length"))).toOption.map
        (·.check.2) = some (.error (.type ⟨23, .unknownField "length" "int[]"⟩)) := by
      decide +kernel
    rw [hp] at hcheck
    have hfail := Option.some.inj hcheck
    exact ⟨p, _, hp, hfail, rfl, (internal_errors_unreachable hp).1 _ hfail⟩

end MiniJava
