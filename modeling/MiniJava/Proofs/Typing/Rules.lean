import MiniJava.Proofs.Results
import MiniJava.Typing

/-!
# The rules of the check

The check computes the type of a statement from the types of its operands. This file states what each
rule demands, without the order in which the check looks at things and without the errors it reports.
-/

namespace MiniJava

open Ssa List

variable {use : Use} {u : Unit} {t : TypeId} {ty ty' : StmtId → Option TypeId}

def TypedStmts.type? (typed : TypedStmts) (id : StmtId) : Option TypeId := typed.lookup id

namespace TypeContext

def BinaryFollows (left right : Option TypeId) (type : TypeId) : BinOp → Prop
  | .and | .or => left = some .boolean ∧ right = some .boolean ∧ type = .boolean
  | .lt | .le | .gt | .ge => left = some .int ∧ right = some .int ∧ type = .boolean
  | .add | .sub | .mul | .div | .mod => left = some .int ∧ right = some .int ∧ type = .int
  | .eq | .ne => left.isSome ∧ right.isSome ∧ type = .boolean

def Follows (cx : TypeContext) (mx : MethodContext) (ty : StmtId → Option TypeId) (s : Statement)
    (type : TypeId) : Prop :=
  let left := s.left?.bind ty
  let right := s.right?.bind ty
  let name := s.name?.getD ""
  match s.op with
  | .unify => left = some type ∧ right = some type
  | .aliasOf | .arg | .store => left = some type
  | .this => mx.this? = some type
  | .parameter => mx.params[s.position?.getD noPosition]? = some type
  | .null => ∃ decl, s.payload = .type decl ∧ cx.types.resolve decl = .ok type
  | .int => type = .int
  | .boolean => type = .boolean
  | .newObject => cx.types.lookup? name = some type ∧ ∃ c ∈ cx.classes, c.name = name
  | .newIntArray => left = some .int ∧ type = .intArray
  | .label | .jump => type = .void
  | .branchIf | .branchUnless => left = some .boolean ∧ type = .void
  | .call => ∃ target method args m, left = some target ∧ cx.types.isObject target = true ∧
      s.call? = some (method, args) ∧ cx.method? target method = some m ∧
      List.Forall₂ (fun arg param => ∃ t, ty arg = some t ∧ cx.types.isSubtype t param = true)
        args m.paramTypes ∧ type = m.returnType?.getD .void
  | .print => left = some .int ∧ type = .void
  | .ret => (∃ value, left = some value ∧
      cx.types.isSubtype value (mx.returnType?.getD .void) = true) ∧ type = .void
  | .member => ∃ target, left = some target ∧
      if target = .intArray ∧ name = "length" then type = .int
      else cx.types.isObject target = true ∧ cx.fieldType? target name = some type
  | .index => left = some .intArray ∧ right = some .int ∧ type = .int
  | .load => False
  | .assignVar => right = some type ∧ ∃ value, left = some value ∧
      cx.types.isSubtype value type = true
  | .assignMember => ∃ target value, left = some target ∧ cx.types.isObject target = true ∧
      cx.fieldType? target name = some type ∧ right = some value ∧
      cx.types.isSubtype value type = true
  | .assignIndex => left = some .intArray ∧ right = some .int ∧
      s.index?.bind ty = some .int ∧ type = .int
  | .not => left = some .boolean ∧ type = .boolean
  | .binary op => BinaryFollows left right type op

/-! ## Demands -/

variable {cx : TypeContext} {mx : MethodContext} {typed : TypedStmts} {s : Statement}
  {type target : TypeId} {id? : Option StmtId}

theorem operand_eq_ok : typed.operand id? = .ok type ↔ id?.bind typed.type? = some type := by
  cases id? with
  | none => simp [TypedStmts.operand]
  | some id =>
    rw [TypedStmts.operand, Option.bind_some, TypedStmts.type?]
    cases typed.lookup id <;> simp

theorem expect_eq_ok : cx.expect use type = .ok u ↔ type = use.type := by
  rw [expect]
  split <;> simp [*]

theorem expectObject_eq_ok : cx.expectObject target = .ok u ↔ cx.types.isObject target = true := by
  rw [expectObject]
  split <;> simp [*]

theorem fieldType_eq_ok {field : String} : cx.fieldType target field = .ok type ↔
    cx.types.isObject target = true ∧ cx.fieldType? target field = some type := by
  rw [fieldType, except_bind_eq_ok]
  simp only [expectObject_eq_ok, exists_const]
  refine and_congr_right fun _ => ?_
  cases cx.fieldType? target field <;> simp

theorem expect_operand_eq_ok {α : Type} {k : Except TypeFault α} {a : α} :
    (do cx.expect use (← typed.operand id?); k) = .ok a ↔
      id?.bind typed.type? = some use.type ∧ k = .ok a := by
  rw [except_bind_eq_ok]
  simp only [operand_eq_ok, except_bind_eq_ok, expect_eq_ok]
  constructor
  · rintro ⟨t, ht, _, rfl, hk⟩
    exact ⟨ht, hk⟩
  · rintro ⟨ht, hk⟩
    exact ⟨_, ht, (), rfl, hk⟩

theorem pure_eq_ok : (pure t : Except TypeFault TypeId) = .ok type ↔ type = t :=
  ⟨fun h => (Except.ok.inj h).symm, fun h => h ▸ rfl⟩

theorem ite_eq_ok {c : Prop} [Decidable c] {fault : TypeFault} :
    (if c then pure t else throw fault : Except TypeFault TypeId) = .ok type ↔ c ∧ type = t := by
  split
  · next h => rw [pure_eq_ok, and_iff_right h]
  · next hc =>
    constructor
    · intro h
      cases h
    · exact fun h => absurd h.1 hc

theorem expect_left_eq_ok : (do cx.expect use (← typed.operand id?); return t) = .ok type ↔
      id?.bind typed.type? = some use.type ∧ type = t := by
  rw [expect_operand_eq_ok, pure_eq_ok]

theorem expect_both_eq_ok {use' : Use} {id'? : Option StmtId} :
    (do cx.expect use (← typed.operand id?); cx.expect use' (← typed.operand id'?); return t) =
        .ok type ↔
      id?.bind typed.type? = some use.type ∧ id'?.bind typed.type? = some use'.type ∧ type = t := by
  rw [expect_operand_eq_ok, expect_left_eq_ok]

theorem checkArgs_eq_ok {method : String} {args : List StmtId} {params : List TypeId} {n : Nat}
    (h : args.length = params.length) :
    cx.checkArgs typed method n (args.zip params) = .ok u ↔
      List.Forall₂ (fun arg param =>
        ∃ t, typed.type? arg = some t ∧ cx.types.isSubtype t param = true) args params := by
  induction args generalizing params n with
  | nil =>
    obtain rfl := List.length_eq_zero_iff.1 h.symm
    simp [checkArgs]
  | cons arg args ih =>
    cases params with
    | nil => cases h
    | cons param params =>
      rw [zip_cons_cons, checkArgs, except_bind_eq_ok, forall₂_cons]
      simp only [operand_eq_ok, Option.bind_some]
      constructor
      · rintro ⟨t, ht, hrest⟩
        split at hrest
        · next hsub => exact ⟨⟨t, ht, hsub⟩, (ih (Nat.succ.inj h)).1 hrest⟩
        · cases hrest
      · rintro ⟨⟨t, ht, hsub⟩, hrest⟩
        refine ⟨t, ht, ?_⟩
        rw [if_pos hsub]
        exact (ih (Nat.succ.inj h)).2 hrest

/-! ## Rules -/

theorem binaryRule_eq_ok {op : BinOp} : cx.binaryRule typed s op = .ok type ↔
    BinaryFollows (s.left?.bind typed.type?) (s.right?.bind typed.type?) type op := by
  have heq : (do
      let _ ← typed.operand s.left?
      let _ ← typed.operand s.right?
      return TypeId.boolean) = .ok type ↔ (s.left?.bind typed.type?).isSome = true ∧
        (s.right?.bind typed.type?).isSome = true ∧ type = .boolean := by
    simp only [except_bind_eq_ok, operand_eq_ok, pure_eq_ok, Option.isSome_iff_exists,
      exists_and_right]
  cases op with
  | eq | ne => exact heq
  | _ => exact expect_both_eq_ok

theorem callRule_eq_ok : cx.callRule typed s = .ok type ↔ ∃ target method args m,
    s.left?.bind typed.type? = some target ∧ cx.types.isObject target = true ∧
      s.call? = some (method, args) ∧ cx.method? target method = some m ∧
      List.Forall₂ (fun arg param =>
        ∃ t, typed.type? arg = some t ∧ cx.types.isSubtype t param = true) args m.paramTypes ∧
      type = m.returnType?.getD .void := by
  rw [callRule, except_bind_eq_ok]
  simp only [operand_eq_ok, except_bind_eq_ok, expectObject_eq_ok, exists_const]
  constructor
  · rintro ⟨target, htarget, hobj, h⟩
    split at h
    · cases h
    · next method args hcall =>
      split at h
      · cases h
      · next m hm =>
        split at h
        · next hlen =>
          obtain ⟨_, hargs, h⟩ := except_bind_eq_ok.1 h
          cases h
          exact ⟨target, method, args, m, htarget, hobj, hcall, hm, (checkArgs_eq_ok hlen).1 hargs,
            rfl⟩
        · cases h
  · rintro ⟨target, method, args, m, htarget, hobj, hcall, hm, hargs, rfl⟩
    refine ⟨target, htarget, hobj, ?_⟩
    have hlen := hargs.length_eq
    simp only [hcall, hm, if_pos hlen]
    exact except_bind_eq_ok.2 ⟨(), (checkArgs_eq_ok hlen).2 hargs, rfl⟩

theorem rule_eq_ok (hop : s.op ≠ .null) :
    cx.rule mx typed s = .ok type ↔ cx.Follows mx typed.type? s type := by
  unfold rule Follows
  cases hs : s.op with
  | null => exact absurd hs hop
  | unify =>
    simp only [except_bind_eq_ok, operand_eq_ok, ite_eq_ok]
    constructor
    · rintro ⟨_, hl, _, hr, rfl, rfl⟩
      exact ⟨hl, hr⟩
    · rintro ⟨hl, hr⟩
      exact ⟨type, hl, type, hr, rfl, rfl⟩
  | aliasOf | arg | store => exact operand_eq_ok
  | this => cases hthis : mx.this? <;> simp
  | parameter =>
    dsimp only
    cases mx.params[s.position?.getD noPosition]? <;> simp
  | int | boolean | label | jump => simp [eq_comm]
  | newObject =>
    dsimp only
    cases cx.types.lookup? (s.name?.getD "") with
    | none => simp
    | some t =>
      simp only [Option.some.injEq]
      split
      · next hany =>
        simp only [any_eq_true, beq_iff_eq] at hany
        simp [hany]
      · next hany =>
        simp only [any_eq_true, beq_iff_eq] at hany
        simp [hany]
  | newIntArray | branchIf | branchUnless | print | not => exact expect_left_eq_ok
  | call => exact callRule_eq_ok
  | ret =>
    simp only [except_bind_eq_ok, operand_eq_ok, ite_eq_ok, ← and_assoc, exists_and_right]
  | member =>
    simp only [except_bind_eq_ok, operand_eq_ok]
    refine exists_congr fun target => and_congr_right fun _ => ?_
    split
    · exact pure_eq_ok
    · exact fieldType_eq_ok
  | index => exact expect_both_eq_ok
  | load => simp
  | assignVar =>
    simp only [except_bind_eq_ok, operand_eq_ok, ite_eq_ok]
    constructor
    · rintro ⟨_, hvar, value, hvalue, hsub, rfl⟩
      exact ⟨hvar, value, hvalue, hsub⟩
    · rintro ⟨hvar, value, hvalue, hsub⟩
      exact ⟨type, hvar, value, hvalue, hsub, rfl⟩
  | assignMember =>
    simp only [except_bind_eq_ok, operand_eq_ok, fieldType_eq_ok, ite_eq_ok]
    constructor
    · rintro ⟨target, htarget, _, ⟨hobj, hfield⟩, value, hvalue, hsub, rfl⟩
      exact ⟨target, value, htarget, hobj, hfield, hvalue, hsub⟩
    · rintro ⟨target, value, htarget, hobj, hfield, hvalue, hsub⟩
      exact ⟨target, htarget, type, ⟨hobj, hfield⟩, value, hvalue, hsub, rfl⟩
  | assignIndex =>
    simp only [expect_operand_eq_ok]
    refine and_congr_right fun _ => and_congr_right fun _ => ?_
    cases s.index? with
    | none => simp [throw, throwThe, MonadExceptOf.throw]
    | some i => exact expect_left_eq_ok
  | binary op => exact binaryRule_eq_ok

/-- **The check follows the rules.** -/
theorem typeOf_eq_ok : cx.typeOf mx typed s = .ok type ↔ cx.Follows mx typed.type? s type := by
  unfold typeOf
  split
  · next decl hop hpayload =>
    unfold Follows
    rw [mapError_eq_ok]
    simp [hop, hpayload]
  · next hnot =>
    rw [mapError_eq_ok]
    by_cases hop : s.op = .null
    · unfold rule Follows
      simp only [hop]
      constructor
      · intro h
        cases h
      · rintro ⟨decl, hpayload, _⟩
        exact absurd hpayload (hnot decl hop)
    · exact rule_eq_ok hop

theorem bind_mono (hle : ∀ id t, ty id = some t → ty' id = some t) (h : id?.bind ty = some type) :
    id?.bind ty' = some type := by
  cases id? with
  | none => cases h
  | some id => exact hle id type h

/-- **Types of further statements do not matter.** -/
theorem Follows.mono (h : cx.Follows mx ty s type)
    (hle : ∀ id t, ty id = some t → ty' id = some t) : cx.Follows mx ty' s type := by
  have hbind : ∀ {id? : Option StmtId} {t : TypeId}, id?.bind ty = some t → id?.bind ty' = some t :=
    bind_mono hle
  revert h
  unfold Follows
  cases s.op with
  | unify => exact And.imp hbind hbind
  | aliasOf | arg | store => exact hbind
  | this | parameter | null | int | boolean | newObject | label | jump | load => exact fun h => h
  | newIntArray | branchIf | branchUnless | print | not => exact And.imp_left hbind
  | call =>
    rintro ⟨target, method, args, m, htarget, hobj, hcall, hm, hargs, htype⟩
    refine ⟨target, method, args, m, hbind htarget, hobj, hcall, hm, hargs.imp ?_, htype⟩
    rintro arg param ⟨t, ht, hsub⟩
    exact ⟨t, hle arg t ht, hsub⟩
  | ret =>
    rintro ⟨⟨value, hvalue, hsub⟩, htype⟩
    exact ⟨⟨value, hbind hvalue, hsub⟩, htype⟩
  | member =>
    rintro ⟨target, htarget, htype⟩
    exact ⟨target, hbind htarget, htype⟩
  | index => exact And.imp hbind (And.imp_left hbind)
  | assignVar =>
    rintro ⟨hvar, value, hvalue, hsub⟩
    exact ⟨hbind hvar, value, hbind hvalue, hsub⟩
  | assignMember =>
    rintro ⟨target, value, htarget, hobj, hfield, hvalue, hsub⟩
    exact ⟨target, value, hbind htarget, hobj, hfield, hbind hvalue, hsub⟩
  | assignIndex => exact And.imp hbind (And.imp hbind (And.imp_left hbind))
  | binary op =>
    have hsome : ∀ {id? : Option StmtId}, (id?.bind ty).isSome = true →
        (id?.bind ty').isSome = true := by
      intro id? h
      obtain ⟨t, ht⟩ := Option.isSome_iff_exists.1 h
      rw [hbind ht]
      rfl
    cases op with
    | eq | ne => exact And.imp hsome (And.imp_left hsome)
    | _ => exact And.imp hbind (And.imp_left hbind)

end TypeContext

end MiniJava
