import MiniJava.Proofs.Results
import MiniJava.Proofs.Semantics.Simulation

/-!
# Traces

The result of a method does not say all that it did. A traced run also keeps a log of its actions in
order: what it printed, which methods it called, how it used the heap, and which way it went at its
branches. An action is in the log from the moment it is tried, so a run that stops shows what stopped
it.
-/

namespace MiniJava

open Ssa List

/-! ## Operands -/

namespace Ssa

/-- Whether an operation has no use for operands, whatever the statement names. -/
def Op.takesNothing : Op → Bool
  | unify | aliasOf | this | parameter | null | int | boolean | newObject | label | jump | load => true
  | _ => false

def Statement.inputs (s : Statement) : List StmtId :=
  if s.op.takesNothing then [] else s.reads

theorem Statement.inputs_of_takesNothing {s : Statement} (h : s.op.takesNothing = true) :
    s.inputs = [] := if_pos h

theorem Statement.inputs_subset_reads (s : Statement) : s.inputs ⊆ s.reads := by
  rw [inputs]
  split
  · exact nil_subset _
  · exact List.Subset.refl _

end Ssa

/-! ## Actions -/

inductive Action where
  | print (v : Value)
  | call (receiver : Value) (method : String) (args : List Value)
  | makeObject (className : String)
  | makeArray (size : Value)
  | readMember (target : Value) (name : String)
  | writeMember (target : Value) (name : String) (v : Value)
  | readIndex (target index : Value)
  | writeIndex (target index v : Value)
  /-- A branch is taken, or control passes on to the next statement. -/
  | branch (label : String) (taken : Bool)
  deriving DecidableEq

def Action.of? : Op → Payload → List Value → Option Action
  | .print, _, [v] => some (.print v)
  | .call, .call method _, receiver :: args => some (.call receiver method args)
  | .newObject, .name className, _ => some (.makeObject className)
  | .newIntArray, _, [size] => some (.makeArray size)
  | .member, .name name, [target] => some (.readMember target name)
  | .assignMember, .name name, [target, v] => some (.writeMember target name v)
  | .index, _, [target, index] => some (.readIndex target index)
  | .assignIndex, _, [target, v, index] => some (.writeIndex target index v)
  | .branchIf, .label l, [condition] => some (.branch l (condition = .bool true))
  | .branchUnless, .label l, [condition] => some (.branch l (condition = .bool false))
  | _, _, _ => none

/-! ## Logs -/

abbrev Traced := EStateM Stop (World × List Action)

def traced {α : Type} (x : Effect α) : Traced α := fun (w, log) =>
  match x w with
  | .ok a w' => .ok a (w', log)
  | .error e w' => .error e (w', log)

def record : Option Action → Traced Unit
  | none => pure ()
  | some action => modify fun (w, log) => (w, log ++ [action])

section Traced

variable {α β : Type} {x : Effect α} {w w' : World}

theorem traced_of_ok {a : α} (h : x w = .ok a w') (log : List Action) :
    traced x (w, log) = .ok a (w', log) := by
  simp only [traced, h]

theorem traced_of_error {e : Stop} (h : x w = .error e w') (log : List Action) :
    traced x (w, log) = .error e (w', log) := by
  simp only [traced, h]

theorem traced_pure (a : α) : traced (pure a) = pure a := by
  funext ⟨w, log⟩
  rfl

theorem traced_fault_bind (e : Fault) (f : α → Traced β) :
    traced (fault e) >>= f = traced (fault e) := by
  funext ⟨w, log⟩
  rfl

theorem traced_bind_congr {f g : α → Traced β} (h : ∀ a w w', x w = .ok a w' → f a = g a) :
    traced x >>= f = traced x >>= g := by
  funext ⟨w, log⟩
  cases hx : x w with
  | ok a w₁ => rw [bind_of_ok (traced_of_ok hx log), bind_of_ok (traced_of_ok hx log), h a w w₁ hx]
  | error e w₁ =>
    rw [bind_of_error (traced_of_error hx log), bind_of_error (traced_of_error hx log)]

theorem traced_perform_bind_congr {act : Activation} {op : Op} {payload : Payload}
    {values : List Value} {f g : Outcome → Traced β} (h : ∀ o, o.Fits op payload → f o = g o) :
    traced (perform act op payload values) >>= f = traced (perform act op payload values) >>= g :=
  traced_bind_congr fun o w w' ho => h o (yields_perform act op payload values w o w' ho)

end Traced

/-! ## Runs -/

namespace Machine

variable {Place : Type} [DecidableEq Place] (M : Machine Place)

def stepTraced (σ : Store Place) (s : Statement) : Traced (Store Place × Control) := do
  let values ← traced (M.fetch σ s.inputs)
  record (Action.of? s.op s.payload values)
  let outcome ← traced (perform M.activation s.op s.payload values)
  traced (M.settle σ s.id outcome)

/-- Executes the body from a position on within a budget, like `Machine.run`. -/
def runTraced (budget pc : Nat) (σ : Store Place) : Traced Value :=
  match _h : M.code[pc]? with
  | none => pure .null
  | some s => do
    match ← M.stepTraced σ s with
    | (σ, .next) => runTraced budget (pc + 1) σ
    | (_, .leave v) => return v
    | (σ, .jump label) =>
      match M.code.labelPosition? label with
      | none => traced (fault .unknownName)
      | some target =>
        if target ≤ pc then
          match budget with
          | 0 => throw .unfinished
          | n + 1 => runTraced n target σ
        else runTraced budget target σ
termination_by (budget, M.code.length - pc)
decreasing_by
  · have := lt_of_getElem? _h
    exact Prod.Lex.right _ (by omega)
  · exact Prod.Lex.left _ _ (Nat.lt_succ_self n)
  · have := lt_of_getElem? _h
    exact Prod.Lex.right _ (by omega)

def execTraced (budget : Nat) : Traced Value := M.runTraced budget 0 .empty

def resumeTraced (budget pc : Nat) : Store Place × Control → Traced Value
  | (σ, .next) => M.runTraced budget (pc + 1) σ
  | (_, .leave v) => pure v
  | (σ, .jump label) =>
    match M.code.labelPosition? label with
    | none => traced (fault .unknownName)
    | some target =>
      if target ≤ pc then
        match budget with
        | 0 => throw .unfinished
        | n + 1 => M.runTraced n target σ
      else M.runTraced budget target σ

variable {M} {budget pc : Nat} {σ : Store Place} {s : Statement} {values : List Value}

theorem runTraced_of_length_le (h : M.code.length ≤ pc) : M.runTraced budget pc σ = pure .null := by
  have hnone : M.code[pc]? = none := List.getElem?_eq_none_iff.2 h
  rw [runTraced]
  split
  · rfl
  · rename_i hs
    rw [hnone] at hs
    cases hs

theorem runTraced_of_getElem? (h : M.code[pc]? = some s) :
    M.runTraced budget pc σ = M.stepTraced σ s >>= M.resumeTraced budget pc := by
  rw [runTraced]
  split
  · rename_i hs
    rw [h] at hs
    cases hs
  · rename_i t ht
    obtain rfl := Option.mem_unique h ht
    refine congrArg (M.stepTraced σ s >>= ·) (funext fun r => ?_)
    obtain ⟨σ', c⟩ := r
    cases c <;> rfl

theorem stepTraced_eq (hr : s.inputs.mapM (M.read? σ) = some values) :
    M.stepTraced σ s = record (Action.of? s.op s.payload values) >>= fun _ =>
      traced (perform M.activation s.op s.payload values) >>= fun o =>
        traced (M.settle σ s.id o) := by
  rw [stepTraced, fetch, hr]
  simp only [traced_pure, pure_bind]

theorem stepTraced_of_none (hr : s.inputs.mapM (M.read? σ) = none) :
    M.stepTraced σ s = traced (fault .unwritten) := by
  rw [stepTraced, fetch, hr]
  exact traced_fault_bind _ _

/-! ## Comparing traced runs -/

section Compare

variable {Q : Type} [DecidableEq Q] {N : Machine Q} {τ : Store Q}

/-- **Machines with related stores leave the same log.** The relation also says at which positions
the second machine may be while the first one is at a position. -/
theorem runTraced_eq_runTraced {R : Nat → Nat → Store Place → Store Q → Prop}
    (hend : ∀ budget pc pc' σ τ, M.code.length ≤ pc → R pc pc' σ τ →
      N.runTraced budget pc' τ = pure .null)
    (hstep : ∀ budget pc pc' s σ τ, M.code[pc]? = some s → R pc pc' σ τ →
      (∀ budget' q q' σ' τ', budget' < budget ∨ budget' = budget ∧ pc < q → R q q' σ' τ' →
        M.runTraced budget' q σ' = N.runTraced budget' q' τ') →
      M.runTraced budget pc σ = N.runTraced budget pc' τ) {pc' : Nat} (h : R pc pc' σ τ) :
    M.runTraced budget pc σ = N.runTraced budget pc' τ := by
  have hall : ∀ pc' σ τ, R pc pc' σ τ → M.runTraced budget pc σ = N.runTraced budget pc' τ := by
    refine budget_induction M.code.length
      (motive := fun budget pc => ∀ pc' σ τ, R pc pc' σ τ →
        M.runTraced budget pc σ = N.runTraced budget pc' τ)
      (fun budget pc hle pc' σ τ hr => ?_) (fun budget pc hlt hlater pc' σ τ hr => ?_) budget pc
    · rw [runTraced_of_length_le hle, hend budget pc pc' σ τ hle hr]
    · exact hstep budget pc pc' _ σ τ (getElem?_eq_getElem hlt) hr
        fun budget' q q' σ' τ' h => hlater budget' q h q' σ' τ'
  exact hall pc' σ τ h

theorem resumeTraced_eq_resumeTraced (entry : Nat → Nat) {c : Control} {pc' : Nat}
    (hlabel : ∀ l, N.code.labelPosition? l = (M.code.labelPosition? l).map entry)
    (horder : ∀ l target, M.code.labelPosition? l = some target → (entry target ≤ pc' ↔ target ≤ pc))
    (hnext : c = .next → M.runTraced budget (pc + 1) σ = N.runTraced budget (pc' + 1) τ)
    (hjump : ∀ l target budget', c = .jump l → M.code.labelPosition? l = some target →
      budget' < budget ∨ budget' = budget ∧ pc < target →
        M.runTraced budget' target σ = N.runTraced budget' (entry target) τ) :
    M.resumeTraced budget pc (σ, c) = N.resumeTraced budget pc' (τ, c) := by
  cases c with
  | next => exact hnext rfl
  | leave v => rfl
  | jump l =>
    rw [resumeTraced, resumeTraced, hlabel]
    cases hl : M.code.labelPosition? l with
    | none => rfl
    | some target =>
      simp only [Option.map_some, horder l target hl]
      by_cases hle : target ≤ pc
      · rw [if_pos hle, if_pos hle]
        cases budget with
        | zero => rfl
        | succ n => exact hjump l target n rfl hl (Or.inl (Nat.lt_succ_self n))
      · rw [if_neg hle, if_neg hle]
        exact hjump l target budget rfl hl (Or.inr ⟨rfl, Nat.not_le.1 hle⟩)

end Compare

end Machine

/-! ## Forgetting the log -/

def Erases {α : Type} (x : Traced α) (y : Effect α) : Prop :=
  ∀ w log, (∃ a w' log', x (w, log) = .ok a (w', log') ∧ y w = .ok a w') ∨
    ∃ e w' log', x (w, log) = .error e (w', log') ∧ y w = .error e w'

namespace Erases

variable {α β : Type} {x : Traced α} {y y' : Effect α} {f : α → Traced β} {g : α → Effect β}

theorem of_traced (y : Effect α) : Erases (traced y) y := by
  intro w log
  cases hy : y w with
  | ok a w' => exact Or.inl ⟨a, w', log, traced_of_ok hy log, rfl⟩
  | error e w' => exact Or.inr ⟨e, w', log, traced_of_error hy log, rfl⟩

theorem of_record (action? : Option Action) : Erases (record action?) (pure ()) := by
  intro w log
  cases action? with
  | none => exact Or.inl ⟨(), w, log, rfl, rfl⟩
  | some action => exact Or.inl ⟨(), w, log ++ [action], rfl, rfl⟩

theorem bind (hx : Erases x y) (hf : ∀ a, Erases (f a) (g a)) : Erases (x >>= f) (y >>= g) := by
  intro w log
  rcases hx w log with ⟨a, w', log', hxa, hya⟩ | ⟨e, w', log', hxe, hye⟩
  · rw [bind_of_ok hxa, bind_of_ok hya]
    exact hf a w' log'
  · exact Or.inr ⟨e, w', log', bind_of_error hxe, bind_of_error hye⟩

theorem eq (h : Erases x y) (h' : Erases x y') : y = y' := by
  funext w
  rcases h w [] with ⟨a, w', log', hx, hy⟩ | ⟨e, w', log', hx, hy⟩
  · rcases h' w [] with ⟨b, v, log'', hx', hy'⟩ | ⟨e, v, log'', hx', hy'⟩
    · rw [hx] at hx'
      cases hx'
      rw [hy, hy']
    · rw [hx] at hx'
      cases hx'
  · rcases h' w [] with ⟨b, v, log'', hx', hy'⟩ | ⟨e', v, log'', hx', hy'⟩
    · rw [hx] at hx'
      cases hx'
    · rw [hx] at hx'
      cases hx'
      rw [hy, hy']

end Erases

namespace Machine

variable {Place : Type} [DecidableEq Place] {M : Machine Place} {budget pc : Nat} {σ : Store Place}

theorem erases_stepTraced {s : Statement} (h : s.inputs = s.reads) :
    Erases (M.stepTraced σ s) (M.step σ s) := by
  rw [stepTraced, h, step]
  refine .bind (.of_traced _) fun values => ?_
  rw [← pure_bind () fun _ => perform M.activation s.op s.payload values >>= M.settle σ s.id]
  refine .bind (.of_record _) fun _ => .bind (.of_traced _) fun o => .of_traced _

/-- **Apart from its log, a traced run is a run**, if the statements have a use for all that they
read. -/
theorem erases_runTraced (h : ∀ s ∈ M.code, s.inputs = s.reads) :
    Erases (M.runTraced budget pc σ) (M.run budget pc σ) := by
  refine budget_induction M.code.length
    (motive := fun budget pc => ∀ σ, Erases (M.runTraced budget pc σ) (M.run budget pc σ))
    (fun budget pc hle σ => ?_) (fun budget pc hlt hlater σ => ?_) budget pc σ
  · rw [runTraced_of_length_le hle, run_of_length_le hle, ← traced_pure]
    exact .of_traced _
  · have hs := getElem?_eq_getElem hlt
    rw [runTraced_of_getElem? hs, run_of_getElem? hs]
    refine .bind (erases_stepTraced (h _ (mem_of_getElem? hs))) ?_
    rintro ⟨σ', c⟩
    cases c with
    | next => exact hlater budget (pc + 1) (Or.inr ⟨rfl, Nat.lt_succ_self pc⟩) σ'
    | leave v =>
      rw [resumeTraced, resume, ← traced_pure]
      exact .of_traced _
    | jump l =>
      rw [resumeTraced, resume]
      cases M.code.labelPosition? l with
      | none => exact .of_traced _
      | some target =>
        by_cases hle : target ≤ pc
        · simp only [if_pos hle]
          cases budget with
          | zero => exact .of_traced (throw .unfinished)
          | succ n => exact hlater n target (Or.inl (Nat.lt_succ_self n)) σ'
        · simp only [if_neg hle]
          exact hlater budget target (Or.inr ⟨rfl, Nat.not_le.1 hle⟩) σ'

end Machine

end MiniJava
