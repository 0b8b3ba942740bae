import MiniJava.Proofs.Lowering.Bindings
import MiniJava.Ssa.Lower

/-!
# Lowering by operands

Whatever its form, an expression lowers its operands from left to right, holds each value that a
later operand may change, and then emits one statement that reads the operands. This file brings the
lowering of every expression into that form, so that later proofs have one case per kind of
statement that is emitted and one induction over operands.
-/

namespace MiniJava

open List

variable {e : Expr} {op : Op} {payload : Payload} {id value : StmtId} {x : String} {u : Unit}
  {outer? : Option Bindings} {captured : Bindings} {ids : List StmtId} {es : List Expr}
  {position : Nat}

namespace Ast.Expr

def operands : Expr → List Expr
  | .assign (.member target _) value => [target, value]
  | .assign (.index target i) value => [target, i, value]
  | .assign _ value => [value]
  | .binary _ left right => [left, right]
  | .not operand => [operand]
  | .index target i => [target, i]
  | .member target _ => [target]
  | .call target _ args => target :: args
  | .newIntArray size => [size]
  | .newObject _ | .this | .var _ | .intLit _ | .boolLit _ => []

theorem sizeOf_lt_of_mem_operands {f : Expr} (h : f ∈ e.operands) : sizeOf f < sizeOf e := by
  unfold operands at h
  split at h
  case h_8 target method args =>
    rcases List.mem_cons.1 h with rfl | h
    · simp only [Expr.call.sizeOf_spec]
      omega
    · have := sizeOf_lt_of_mem h
      simp only [Expr.call.sizeOf_spec]
      omega
  all_goals
    simp only [mem_cons, not_mem_nil, or_false] at h
    try rcases h with rfl | rfl | rfl
    try rcases h with rfl | rfl
    try subst h
    all_goals simp_all +arith

theorem operandInduction {P : Expr → Prop} (step : ∀ e, (∀ f ∈ e.operands, P f) → P e)
    (e : Expr) : P e :=
  step e fun f hf =>
    have := sizeOf_lt_of_mem_operands hf
    operandInduction step f
termination_by sizeOf e

end Ast.Expr

namespace Ssa

open Ast

/-! ## Actions that succeed -/

namespace Build

variable {α β : Type} {sc sc' : Scope}

theorem bind_eq_ok {x : Build α} {f : α → Build β} {b : β} :
    (x >>= f) sc = .ok b sc' ↔ ∃ a sc₁, x sc = .ok a sc₁ ∧ f a sc₁ = .ok b sc' := by
  change EStateM.bind x f sc = _ ↔ _
  unfold EStateM.bind
  cases x sc with
  | error e sc₁ => simp
  | ok a sc₁ =>
    constructor
    · exact fun h => ⟨a, sc₁, rfl, h⟩
    · rintro ⟨_, _, h, hf⟩
      cases h
      exact hf

theorem pure_eq_ok {a b : α} : (pure a : Build α) sc = .ok b sc' ↔ a = b ∧ sc = sc' := by
  change EStateM.Result.ok a sc = .ok b sc' ↔ _
  simp

theorem emit_eq_ok {left? right? : Option StmtId} : emit op left? right? payload sc = .ok id sc' ↔
      id = sc.nextId ∧ sc' = (sc.emit op left? right? payload).2 := by
  change EStateM.Result.ok _ (sc.emit op left? right? payload).2 = .ok id sc' ↔ _
  rw [EStateM.Result.ok.injEq, eq_comm, @eq_comm _ sc']

theorem local?_eq_ok {b? : Option StmtId} :
    local? x sc = .ok b? sc' ↔ b? = sc.locals.find? x ∧ sc' = sc := by
  change EStateM.Result.ok _ _ = .ok b? sc' ↔ _
  simp [eq_comm]

theorem rebind_eq_ok : rebind x id sc = .ok u sc' ↔ sc' = sc.rebind x id := by
  change EStateM.Result.ok _ _ = .ok u sc' ↔ _
  simp [eq_comm]

theorem get_eq_ok {sc₁ : Scope} :
    (get : Build Scope) sc = .ok sc₁ sc' ↔ sc₁ = sc ∧ sc' = sc := by
  change EStateM.Result.ok _ _ = .ok sc₁ sc' ↔ _
  simp [eq_comm]

theorem openShadow_eq_ok : openShadow sc = .ok outer? sc' ↔
      outer? = sc.shadow? ∧ sc' = { sc with shadow? := some .empty } := by
  change EStateM.Result.ok _ _ = .ok outer? sc' ↔ _
  simp [eq_comm]

theorem closeShadow_eq_ok : closeShadow outer? sc = .ok captured sc' ↔
      captured = sc.shadow?.getD .empty ∧ sc' = { sc with shadow? := outer? } := by
  change EStateM.Result.ok _ _ = .ok captured sc' ↔ _
  simp [eq_comm]

theorem throw_ne_ok {e : StructuralError} {a : α} : (throw e : Build α) sc ≠ .ok a sc' := by
  intro h
  change EStateM.Result.error _ _ = EStateM.Result.ok a sc' at h
  cases h

def succeeds (action : Build α) (sc : Scope) : Bool :=
  match action sc with
  | .ok .. => true
  | .error .. => false

theorem exists_of_succeeds {action : Build α} (h : action.succeeds sc = true) :
    ∃ a sc', action sc = .ok a sc' := by
  rw [succeeds] at h
  cases hr : action sc with
  | ok a sc' => exact ⟨a, sc', rfl⟩
  | error e sc' =>
    rw [hr] at h
    cases h

end Build

/-! ## Operands -/

@[simp] theorem hold_false (value : StmtId) : hold value false = pure value := rfl

/-- The operation and the payload of the statement that computes an expression from its operands, if
the expression is neither a variable, nor a call, nor an assignment. -/
def nodeOf? : Expr → Option (Op × Payload)
  | .intLit n => some (.int, .int n)
  | .boolLit b => some (.boolean, .bool b)
  | .this => some (.this, .none)
  | .binary op _ _ => some (.binary op, .none)
  | .not _ => some (.not, .none)
  | .index _ _ => some (.index, .none)
  | .member _ name => some (.member, .name name)
  | .newObject name => some (.newObject, .name name)
  | .newIntArray _ => some (.newIntArray, .none)
  | .var _ | .call .. | .assign .. => none

theorem lowerArgs_nil : lowerArgs [] = pure [] := by
  rw [lowerArgs]

theorem lowerArgs_cons (e : Expr) (es : List Expr) :
    lowerArgs (e :: es) = (do
      let v ← lowerExpr e
      let v ← hold v (anyAssignment es)
      return v :: (← lowerArgs es)) := by
  rw [lowerArgs]

theorem lowerExpr_of_nodeOf? (h : nodeOf? e = some (op, payload)) : lowerExpr e = (do
      let ids ← lowerArgs e.operands
      Build.emit op ids[0]? ids[1]? payload) := by
  cases e <;> cases h <;>
    simp [lowerExpr, lowerArgs_cons, lowerArgs_nil, Expr.operands, anyAssignment]

theorem hold_cases {later : Bool} {sc sc' : Scope} (h : hold value later sc = .ok id sc') :
    (id = value ∧ sc' = sc ∧ (later = true → ∀ x, sc.locals.find? x ≠ some value)) ∨
      ∃ x, later = true ∧ sc.locals.find? x = some value ∧ id = sc.nextId ∧
        sc' = (sc.emit .assignVar (some value) (some value) (.name x)).2 := by
  simp only [hold, Build.bind_eq_ok, Build.get_eq_ok] at h
  obtain ⟨_, _, ⟨hget, hsc⟩, h⟩ := h
  rw [hget, hsc] at h
  cases later with
  | false =>
    obtain ⟨rfl, rfl⟩ := Build.pure_eq_ok.1 h
    exact Or.inl ⟨rfl, rfl, by simp⟩
  | true =>
    cases hx : sc.locals.nameOf? value with
    | none =>
      rw [hx] at h
      obtain ⟨rfl, rfl⟩ := Build.pure_eq_ok.1 h
      exact Or.inl ⟨rfl, rfl, fun _ => Bindings.nameOf?_eq_none hx⟩
    | some x =>
      rw [hx] at h
      obtain ⟨rfl, rfl⟩ := Build.emit_eq_ok.1 h
      exact Or.inr ⟨x, rfl, Bindings.nameOf?_eq_some hx, rfl, rfl⟩

theorem lowerArgs_nil_cases {sc sc' : Scope} (h : lowerArgs [] sc = .ok ids sc') :
    ids = [] ∧ sc' = sc := by
  rw [lowerArgs_nil] at h
  obtain ⟨rfl, rfl⟩ := Build.pure_eq_ok.1 h
  exact ⟨rfl, rfl⟩

theorem lowerArgs_cons_cases {sc sc' : Scope} (h : lowerArgs (e :: es) sc = .ok ids sc') :
    ∃ v sc₁ held sc₂ rest, lowerExpr e sc = .ok v sc₁ ∧
      hold v (anyAssignment es) sc₁ = .ok held sc₂ ∧ lowerArgs es sc₂ = .ok rest sc' ∧
        ids = held :: rest := by
  simp only [lowerArgs_cons, Build.bind_eq_ok, Build.pure_eq_ok] at h
  obtain ⟨v, sc₁, hv, held, sc₂, hh, rest, _, hrest, rfl, rfl⟩ := h
  exact ⟨v, sc₁, held, sc₂, rest, hv, hh, hrest, rfl⟩

theorem length_of_lowerArgs : ∀ {ids : List StmtId} {sc sc' : Scope},
    lowerArgs es sc = .ok ids sc' → ids.length = es.length := by
  induction es with
  | nil =>
    intro ids sc sc' h
    rw [(lowerArgs_nil_cases h).1]
    rfl
  | cons e es ih =>
    intro ids sc sc' h
    obtain ⟨_, _, _, _, rest, _, _, hrest, rfl⟩ := lowerArgs_cons_cases h
    rw [length_cons, length_cons, ih hrest]

theorem emitArgs_nil_cases {sc sc' : Scope} (h : emitArgs position [] sc = .ok ids sc') :
    ids = [] ∧ sc' = sc := by
  obtain ⟨rfl, rfl⟩ := Build.pure_eq_ok.1 h
  exact ⟨rfl, rfl⟩

theorem emitArgs_cons_cases {values : List StmtId} {sc sc' : Scope}
    (h : emitArgs position (value :: values) sc = .ok ids sc') :
    ∃ rest, ids = sc.nextId :: rest ∧ emitArgs (position + 1) values
      (sc.emit .arg (some value) none (.position position)).2 = .ok rest sc' := by
  simp only [emitArgs, Build.bind_eq_ok, Build.emit_eq_ok, Build.pure_eq_ok] at h
  obtain ⟨_, _, ⟨rfl, rfl⟩, rest, _, hrest, rfl, rfl⟩ := h
  exact ⟨rest, rfl, hrest⟩

inductive LowersExpr : Expr → Scope → StmtId → Scope → Prop
  | bound {x : String} {b : StmtId} {sc : Scope} (hx : sc.locals.find? x = some b) :
    LowersExpr (.var x) sc b sc
  | field {x : String} {id : StmtId} {sc sc' : Scope} (hx : sc.locals.find? x = none)
    (h : lowerExpr (.member .this x) sc = .ok id sc') : LowersExpr (.var x) sc id sc'
  | node {e : Expr} {op : Op} {payload : Payload} {ids : List StmtId} {sc sc₁ : Scope}
    (hn : nodeOf? e = some (op, payload)) (h : lowerArgs e.operands sc = .ok ids sc₁) :
    LowersExpr e sc sc₁.nextId (sc₁.emit op ids[0]? ids[1]? payload).2
  | call {target : Expr} {method : String} {args : List Expr} {t : StmtId}
    {values ids : List StmtId} {sc sc₁ sc₂ : Scope}
    (h : lowerArgs (target :: args) sc = .ok (t :: values) sc₁)
    (ha : emitArgs 0 values sc₁ = .ok ids sc₂) :
    LowersExpr (.call target method args) sc sc₂.nextId
      (sc₂.emit .call (some t) none (.call method ids)).2
  | assignBound {x : String} {value : Expr} {old v : StmtId} {sc sc₁ : Scope}
    (hx : sc.locals.find? x = some old) (h : lowerExpr value sc = .ok v sc₁) :
    LowersExpr (.assign (.var x) value) sc v
      ((sc₁.emit .assignVar (some v) (some old) (.name x)).2.rebind x sc₁.nextId)
  | assignField {x : String} {value : Expr} {v : StmtId} {sc sc₁ : Scope}
    (hx : sc.locals.find? x = none)
    (h : lowerExpr value (sc.emit .this none none .none).2 = .ok v sc₁) :
    LowersExpr (.assign (.var x) value) sc v
      (sc₁.emit .assignMember (some sc.nextId) (some v) (.name x)).2
  | assignMember {target value : Expr} {name : String} {t v : StmtId} {sc sc₁ : Scope}
    (h : lowerArgs [target, value] sc = .ok [t, v] sc₁) :
    LowersExpr (.assign (.member target name) value) sc v
      (sc₁.emit .assignMember (some t) (some v) (.name name)).2
  | assignIndex {target index value : Expr} {t i v : StmtId} {sc sc₁ : Scope}
    (h : lowerArgs [target, index, value] sc = .ok [t, i, v] sc₁) :
    LowersExpr (.assign (.index target index) value) sc v
      (sc₁.emit .assignIndex (some t) (some v) (.index i)).2

/-- **Every successful lowering of an expression is of the form `LowersExpr`.** -/
theorem lowersExpr {sc sc' : Scope} (h : lowerExpr e sc = .ok id sc') : LowersExpr e sc id sc' := by
  cases hn : nodeOf? e with
  | some node =>
    rw [lowerExpr_of_nodeOf? hn] at h
    obtain ⟨ids, sc₁, hargs, h⟩ := Build.bind_eq_ok.1 h
    obtain ⟨rfl, rfl⟩ := Build.emit_eq_ok.1 h
    exact .node hn hargs
  | none =>
    cases e with
    | var x =>
      cases hx : sc.locals.find? x with
      | some b =>
        simp only [lowerExpr, Build.bind_eq_ok, Build.local?_eq_ok] at h
        obtain ⟨_, _, ⟨rfl, rfl⟩, h⟩ := h
        rw [hx] at h
        obtain ⟨rfl, rfl⟩ := Build.pure_eq_ok.1 h
        exact .bound hx
      | none =>
        refine .field hx ?_
        simp only [lowerExpr, Build.bind_eq_ok, Build.local?_eq_ok] at h ⊢
        obtain ⟨_, _, ⟨rfl, rfl⟩, h⟩ := h
        rw [hx] at h
        simpa only [Build.bind_eq_ok] using h
    | call target method args =>
      simp only [lowerExpr, Build.bind_eq_ok] at h
      obtain ⟨t, sc₁, ht, t', sc₂, ht', values, sc₃, hv, ids, sc₄, ha, h⟩ := h
      obtain ⟨rfl, rfl⟩ := Build.emit_eq_ok.1 h
      have hargs : lowerArgs (target :: args) sc = .ok (t' :: values) sc₃ := by
        simp only [lowerArgs_cons, Build.bind_eq_ok, Build.pure_eq_ok]
        exact ⟨t, sc₁, ht, t', sc₂, ht', values, sc₃, hv, rfl, rfl⟩
      exact .call hargs ha
    | assign target value =>
      cases target with
      | var x =>
        simp only [lowerExpr, Build.bind_eq_ok, Build.local?_eq_ok] at h
        obtain ⟨_, _, ⟨rfl, hsc⟩, h⟩ := h
        rw [hsc] at h
        cases hx : sc.locals.find? x with
        | some old =>
          rw [hx] at h
          simp only [Build.bind_eq_ok, Build.emit_eq_ok, Build.rebind_eq_ok,
            Build.pure_eq_ok] at h
          obtain ⟨v, sc₁, hv, _, _, ⟨rfl, rfl⟩, _, _, rfl, rfl, rfl⟩ := h
          exact .assignBound hx hv
        | none =>
          rw [hx] at h
          simp only [Build.bind_eq_ok, Build.emit_eq_ok, Build.pure_eq_ok] at h
          obtain ⟨_, _, ⟨rfl, rfl⟩, v, sc₁, hv, _, _, ⟨rfl, rfl⟩, rfl, rfl⟩ := h
          exact .assignField hx hv
      | member target name =>
        simp only [lowerExpr, Build.bind_eq_ok, Build.emit_eq_ok, Build.pure_eq_ok] at h
        obtain ⟨t, sc₁, ht, t', sc₂, ht', v, sc₃, hv, _, _, ⟨rfl, rfl⟩, rfl, rfl⟩ := h
        refine .assignMember ?_
        simp only [lowerArgs_cons, lowerArgs_nil, anyAssignment, Bool.or_false, hold_false,
          Build.bind_eq_ok, Build.pure_eq_ok]
        exact ⟨t, sc₁, ht, t', sc₂, ht', [v], sc₃, ⟨v, sc₃, hv, v, sc₃, ⟨rfl, rfl⟩, [], sc₃,
          ⟨rfl, rfl⟩, rfl, rfl⟩, rfl, rfl⟩
      | index target index =>
        simp only [lowerExpr, Build.bind_eq_ok, Build.emit_eq_ok, Build.pure_eq_ok] at h
        obtain ⟨t, sc₁, ht, t', sc₂, ht', i, sc₃, hi, i', sc₄, hi', v, sc₅, hv, _, _, ⟨rfl, rfl⟩,
          rfl, rfl⟩ := h
        refine .assignIndex ?_
        simp only [lowerArgs_cons, lowerArgs_nil, anyAssignment, Bool.or_false, hold_false,
          Build.bind_eq_ok, Build.pure_eq_ok]
        exact ⟨t, sc₁, ht, t', sc₂, ht', [i', v], sc₅, ⟨i, sc₃, hi, i', sc₄, hi', [v], sc₅,
          ⟨v, sc₅, hv, v, sc₅, ⟨rfl, rfl⟩, [], sc₅, ⟨rfl, rfl⟩, rfl, rfl⟩, rfl, rfl⟩, rfl, rfl⟩
      | _ =>
        rw [lowerExpr] at h
        · exact (Build.throw_ne_ok h).elim
        all_goals simp
    | _ => simp [nodeOf?] at hn

end Ssa

end MiniJava
