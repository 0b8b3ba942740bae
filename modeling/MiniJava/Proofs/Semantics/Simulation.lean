import MiniJava.Proofs.Semantics.Machine

/-!
# Comparing machines

Two machines do the same if some relation between their stores holds before each statement that both
reach. What has to be shown for one statement is that whatever it comes to leads to related stores.
The second machine may need several statements for one of the first, so each position of the first has
a position of the second at which its code starts.
-/

namespace MiniJava

open Ssa

/-! ## Effects -/

theorem bind_of_ok {ε σ α β : Type} {x : EStateM ε σ α} {f : α → EStateM ε σ β} {s s' : σ} {a : α}
    (h : x s = .ok a s') : (x >>= f) s = f a s' := by
  change EStateM.bind x f s = _
  rw [EStateM.bind, h]

theorem bind_of_error {ε σ α β : Type} {x : EStateM ε σ α} {f : α → EStateM ε σ β} {s s' : σ} {e : ε}
    (h : x s = .error e s') : (x >>= f) s = .error e s' := by
  change EStateM.bind x f s = _
  rw [EStateM.bind, h]

namespace Effect

variable {α β : Type} {x : Effect α} {f g : α → Effect β} {w w' : World} {b : β}

theorem bind_eq_ok : (x >>= f) w = .ok b w' ↔ ∃ a w₁, x w = .ok a w₁ ∧ f a w₁ = .ok b w' := by
  change EStateM.bind x f w = _ ↔ _
  unfold EStateM.bind
  cases x w with
  | ok a w₁ =>
    constructor
    · exact fun h => ⟨a, w₁, rfl, h⟩
    · rintro ⟨_, _, h, hf⟩
      cases h
      exact hf
  | error e w₁ => simp

theorem pure_eq_ok {a : β} : (pure a : Effect β) w = .ok b w' ↔ a = b ∧ w = w' := by
  change EStateM.Result.ok a w = .ok b w' ↔ _
  simp

theorem map_eq_ok {g : α → β} : (g <$> x) w = .ok b w' ↔ ∃ a, x w = .ok a w' ∧ g a = b := by
  change EStateM.map g x w = _ ↔ _
  unfold EStateM.map
  cases x w <;> simp [and_left_comm, and_comm]

theorem fault_ne_ok {e : Fault} : (fault e : Effect β) w ≠ .ok b w' := by
  change EStateM.Result.error (Stop.fault e) w ≠ .ok b w'
  simp

theorem bind_congr (h : ∀ a w w', x w = .ok a w' → f a = g a) : x >>= f = x >>= g := by
  funext w
  change EStateM.bind x f w = EStateM.bind x g w
  unfold EStateM.bind
  cases hx : x w with
  | ok a w₁ => simp only [h a w w₁ hx]
  | error e w₁ => rfl

end Effect

/-! ## Outcomes -/

def Outcome.Fits (op : Op) (payload : Payload) : Outcome → Prop
  | .value _ => op.definesValue = true ∧ op ≠ .load
  | .nothing => op.definesValue = false ∧ op.fallsThrough = true ∧ op ≠ .store
  | .jump l => op.isJump = true ∧ payload = .label l
  | .leave _ => op = .ret
  | .save slot _ => op = .store ∧ payload = .slot slot
  | .restore slot => op = .load ∧ payload = .slot slot

def Yields (op : Op) (payload : Payload) (eff : Effect Outcome) : Prop :=
  ∀ w o w', eff w = .ok o w' → o.Fits op payload

namespace Yields

variable {op : Op} {payload : Payload} {o : Outcome} {l : String}

theorem of_fault (e : Fault) : Yields op payload (fault e) :=
  fun _ _ _ h => absurd h Effect.fault_ne_ok

theorem of_pure (h : o.Fits op payload) : Yields op payload (pure o) := by
  intro w o' w' heq
  obtain ⟨rfl, _⟩ := Effect.pure_eq_ok.1 heq
  exact h

theorem of_value (eff : Effect Value) (h : op.definesValue = true ∧ op ≠ .load) :
    Yields op payload (.value <$> eff) := by
  intro w o w' heq
  obtain ⟨v, _, rfl⟩ := Effect.map_eq_ok.1 heq
  exact h

theorem of_nothing (eff : Effect Unit)
    (h : op.definesValue = false ∧ op.fallsThrough = true ∧ op ≠ .store) :
    Yields op payload (do eff; return .nothing) := by
  intro w o w' heq
  obtain ⟨_, w₁, _, heq⟩ := Effect.bind_eq_ok.1 heq
  obtain ⟨rfl, _⟩ := Effect.pure_eq_ok.1 heq
  exact h

theorem of_branchOn (taken : Bool) (condition : Value)
    (h : op.definesValue = false ∧ op.fallsThrough = true ∧ op ≠ .store)
    (hj : op.isJump = true) : Yields op (.label l) (branchOn taken condition l) := by
  intro w o w' heq
  rw [branchOn] at heq
  obtain ⟨b, w₁, _, heq⟩ := Effect.bind_eq_ok.1 heq
  obtain ⟨rfl, _⟩ := Effect.pure_eq_ok.1 heq
  split
  · exact ⟨hj, rfl⟩
  · exact h

end Yields

/-- **What an operation can come to.** -/
theorem yields_perform (act : Activation) (op : Op) (payload : Payload) (values : List Value) :
    Yields op payload (perform act op payload values) := by
  unfold perform
  split
  all_goals first
    | exact .of_fault _
    | exact .of_value _ ⟨rfl, by simp⟩
    | exact .of_nothing _ ⟨rfl, rfl, by simp⟩
    | exact .of_branchOn _ _ ⟨rfl, rfl, by simp⟩ rfl
    | exact .of_pure ⟨rfl, rfl, by simp⟩
    | exact .of_pure ⟨rfl, rfl⟩
    | exact .of_pure ⟨rfl, by simp⟩
    | exact .of_pure rfl
    | skip
  -- What is left is a parameter, which may be missing.
  split
  · exact .of_pure ⟨rfl, by simp⟩
  · exact .of_fault _

/-- **What follows an operation matters for its possible outcomes only.** -/
theorem perform_bind_congr {α : Type} {act : Activation} {op : Op} {payload : Payload}
    {values : List Value} {f g : Outcome → Effect α} (h : ∀ o, o.Fits op payload → f o = g o) :
    perform act op payload values >>= f = perform act op payload values >>= g :=
  Effect.bind_congr fun o w w' ho => h o (yields_perform act op payload values w o w' ho)

/-! ## Machines -/

namespace Machine

variable {P Q : Type} [DecidableEq P] [DecidableEq Q] {M : Machine P} {N : Machine Q}
  {budget pc : Nat} {σ : Store P} {τ : Store Q}

theorem budget_induction (length : Nat) {motive : Nat → Nat → Prop}
    (hend : ∀ budget pc, length ≤ pc → motive budget pc)
    (hstep : ∀ budget pc, pc < length →
      (∀ budget' pc', budget' < budget ∨ budget' = budget ∧ pc < pc' → motive budget' pc') →
        motive budget pc) (budget pc : Nat) : motive budget pc := by
  induction budget using Nat.strongRecOn generalizing pc with
  | ind budget ihb =>
    induction hn : length - pc using Nat.strongRecOn generalizing pc with
    | ind n ihn =>
      rcases Nat.lt_or_ge pc length with hlt | hle
      · refine hstep budget pc hlt fun budget' pc' hlater => ?_
        rcases hlater with hlater | ⟨rfl, hlater⟩
        · exact ihb budget' hlater pc'
        · exact ihn (length - pc') (by omega) pc' rfl
      · exact hend budget pc hle

/-- **Machines with related stores do the same.** Before a statement of the first machine the second
one is where the code of that statement starts. A statement may rely on what comes after it, in the
text or after a jump back with what is left of the budget. -/
theorem run_eq_run {R : Nat → Store P → Store Q → Prop} (start : Nat → Nat)
    (hend : ∀ budget pc τ, M.code.length ≤ pc → N.run budget (start pc) τ = pure .null)
    (hstep : ∀ budget pc s σ τ, M.code[pc]? = some s → R pc σ τ →
      (∀ budget' pc' σ' τ', budget' < budget ∨ budget' = budget ∧ pc < pc' → R pc' σ' τ' →
        M.run budget' pc' σ' = N.run budget' (start pc') τ') →
      M.run budget pc σ = N.run budget (start pc) τ) (h : R pc σ τ) :
    M.run budget pc σ = N.run budget (start pc) τ := by
  have hall : ∀ σ τ, R pc σ τ → M.run budget pc σ = N.run budget (start pc) τ := by
    refine budget_induction M.code.length
      (motive := fun budget pc => ∀ σ τ, R pc σ τ → M.run budget pc σ = N.run budget (start pc) τ)
      (fun budget pc hle σ τ _ => ?_) (fun budget pc hlt hlater σ τ hr => ?_) budget pc
    · rw [run_of_length_le hle, hend budget pc τ hle]
    · exact hstep budget pc _ σ τ (List.getElem?_eq_getElem hlt) hr
        fun budget' pc' σ' τ' h => hlater budget' pc' h σ' τ'
  exact hall σ τ h

theorem resume_eq_resume (start : Nat → Nat) {c : Control} {pc' : Nat}
    (hlabel : ∀ l, N.code.labelPosition? l = (M.code.labelPosition? l).map start)
    (horder : ∀ l target, M.code.labelPosition? l = some target → (start target ≤ pc' ↔ target ≤ pc))
    (hnext : c = .next → M.run budget (pc + 1) σ = N.run budget (pc' + 1) τ)
    (hjump : ∀ l target budget', c = .jump l → M.code.labelPosition? l = some target →
      budget' < budget ∨ budget' = budget ∧ pc < target →
        M.run budget' target σ = N.run budget' (start target) τ) :
    M.resume budget pc (σ, c) = N.resume budget pc' (τ, c) := by
  cases c with
  | next => exact hnext rfl
  | leave v => rfl
  | jump l =>
    rw [resume, resume, hlabel]
    cases hl : M.code.labelPosition? l with
    | none => rfl
    | some target =>
      simp only [Option.map_some, horder l target hl]
      by_cases hle : target ≤ pc
      · rw [if_pos hle, if_pos hle]
        cases budget with
        | zero => rfl
        | succ n => exact hjump l target n rfl hl (Or.inl (Nat.lt_succ_self n))
      · rw [if_neg hle, if_neg hle]
        exact hjump l target budget rfl hl (Or.inr ⟨rfl, Nat.not_le.1 hle⟩)

/-- Machines that execute the same operations at the same positions, with a relation between their
stores that each statement keeps. -/
structure Lockstep (M : Machine P) (N : Machine Q) (R : Nat → Store P → Store Q → Prop) : Prop where
  activation : N.activation = M.activation
  length : N.code.length = M.code.length
  label : ∀ l, N.code.labelPosition? l = M.code.labelPosition? l
  stmt : ∀ (pc : Nat) (s : Statement), M.code[pc]? = some s →
    ∃ t, N.code[pc]? = some t ∧ t.id = s.id ∧ t.op = s.op ∧ t.payload = s.payload
  reads : ∀ (pc : Nat) (s t : Statement) σ τ, M.code[pc]? = some s → N.code[pc]? = some t → R pc σ τ →
    t.reads.mapM (N.read? τ) = s.reads.mapM (M.read? σ)
  slots : ∀ pc σ τ, R pc σ τ → τ.slots = σ.slots
  put : ∀ (pc : Nat) (s : Statement) σ τ v, M.code[pc]? = some s → s.op.definesValue = true → R pc σ τ →
    ∃ p q, M.place? s.id = some p ∧ N.place? s.id = some q ∧ R (pc + 1) (σ.put p v) (τ.put q v)
  save : ∀ (pc : Nat) (s : Statement) σ τ slot v, M.code[pc]? = some s → s.op = .store → R pc σ τ →
    R (pc + 1) (σ.save slot v) (τ.save slot v)
  next : ∀ (pc : Nat) (s : Statement) σ τ, M.code[pc]? = some s → s.op.definesValue = false → s.op.fallsThrough = true →
    R pc σ τ → R (pc + 1) σ τ
  jump : ∀ (pc : Nat) (s : Statement) σ τ l target, M.code[pc]? = some s → s.op.isJump = true → s.payload = .label l →
    M.code.labelPosition? l = some target → R pc σ τ → R target σ τ

namespace Lockstep

variable {R : Nat → Store P → Store Q → Prop} {s t : Statement}

theorem resume_define (h : Lockstep M N R) (hs : M.code[pc]? = some s)
    (hd : s.op.definesValue = true) (hr : R pc σ τ) (v : Value)
    (hrun : ∀ σ' τ', R (pc + 1) σ' τ' → M.run budget (pc + 1) σ' = N.run budget (pc + 1) τ') :
    ((do return (← M.define σ s.id v, .next)) >>= M.resume budget pc) =
      ((do return (← N.define τ s.id v, .next)) >>= N.resume budget pc) := by
  obtain ⟨p, q, hp, hq, hput⟩ := h.put pc s σ τ v hs hd hr
  rw [define, define, hp, hq]
  exact hrun _ _ hput

theorem resume_settle (h : Lockstep M N R) (hs : M.code[pc]? = some s) (hr : R pc σ τ) {o : Outcome}
    (ho : o.Fits s.op s.payload)
    (hrun : ∀ budget' pc' σ' τ', budget' < budget ∨ budget' = budget ∧ pc < pc' → R pc' σ' τ' →
      M.run budget' pc' σ' = N.run budget' pc' τ') :
    M.settle σ s.id o >>= M.resume budget pc = N.settle τ s.id o >>= N.resume budget pc := by
  have hnext : ∀ σ' τ', R (pc + 1) σ' τ' →
      M.run budget (pc + 1) σ' = N.run budget (pc + 1) τ' :=
    fun σ' τ' => hrun budget (pc + 1) σ' τ' (Or.inr ⟨rfl, Nat.lt_succ_self pc⟩)
  cases o with
  | value v => exact h.resume_define hs ho.1 hr v hnext
  | nothing => exact hnext _ _ (h.next pc s σ τ hs ho.1 ho.2.1 hr)
  | leave v => rfl
  | save slot v => exact hnext _ _ (h.save pc s σ τ slot v hs ho.1 hr)
  | restore slot =>
    rw [settle, settle, h.slots pc σ τ hr]
    cases σ.slots slot with
    | none => rfl
    | some v => exact h.resume_define hs (by rw [ho.1]; rfl) hr v hnext
  | jump l =>
    change M.resume budget pc (σ, .jump l) = N.resume budget pc (τ, .jump l)
    refine resume_eq_resume (fun i => i) (fun l => ?_) (fun _ _ _ => Iff.rfl) ?_ ?_
    · rw [h.label, Option.map_id']
    · intro hc
      cases hc
    · intro l' target budget' hl htarget hlater
      cases hl
      exact hrun budget' target σ τ hlater
        (h.jump pc s σ τ l target hs ho.1 ho.2 htarget hr)

/-- **Machines in lockstep do the same.** -/
theorem run_eq (h : Lockstep M N R) (hr : R pc σ τ) : M.run budget pc σ = N.run budget pc τ := by
  refine run_eq_run (fun i => i) (fun budget pc τ hle => ?_)
    (fun budget pc s σ τ hs hr hrun => ?_) hr
  · exact run_of_length_le (h.length ▸ hle)
  · obtain ⟨t, ht, hid, hop, hpay⟩ := h.stmt pc s hs
    rw [run_of_getElem? hs, run_of_getElem? ht, step, step, fetch, fetch,
      h.reads pc s t σ τ hs ht hr, hid, hop, hpay, h.activation]
    cases s.reads.mapM (M.read? σ) with
    | none => rfl
    | some values =>
      simp only [pure_bind, bind_assoc]
      exact perform_bind_congr fun o ho => h.resume_settle hs hr ho hrun

end Lockstep

end Machine

end MiniJava
