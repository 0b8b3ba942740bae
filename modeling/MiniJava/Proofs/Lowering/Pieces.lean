import MiniJava.Proofs.Lowering.Labels
import MiniJava.Proofs.Lowering.Owners
import MiniJava.Proofs.Semantics.Evaluation

/-!
# Pieces of code

What it means that a piece of code does what a computation does. The statement is about whatever the
machine does afterwards: from the start of the code the machine does what the computation does, and
then what it does from the end of the code on, where the locals are as after the computation and the
result is in its cell.
-/

namespace MiniJava.Ssa

open Ast List Statement

variable {t d : StmtId} {env : Env} {c : Nat} {x : String}

/-! ## Values in cells -/

structure CellMachine (names : List String) (base : Nat) (own : Owners) (M : Machine Nat) :
    Prop where
  code : M.code.Owned names base own
  place : M.place? = M.code.cell?

def Agrees (M : Machine Nat) (sc : Scope) (env : Env) (σ : Store Nat) : Prop :=
  ∀ x, match sc.locals.find? x with
    | none => env.locals x = none
    | some b => ∃ v, env.locals x = some v ∧ M.read? σ b = some v

/-- An owned statement numbered from `n` to `n'` puts another value in the cell of a statement. -/
def Overwritten (M : Machine Nat) (own : Owners) (n n' : Nat) (t : StmtId) : Prop :=
  ∃ s ∈ M.code, n ≤ s.id ∧ s.id < n' ∧ own s.id ≠ none ∧ M.place? s.id = M.place? t ∧
    s.left? ≠ some t

/-- Statements numbered below `n` that are not overwritten keep their values. -/
def Frames (M : Machine Nat) (own : Owners) (n n' : Nat) (σ σ' : Store Nat) : Prop :=
  ∀ t < n, ¬ Overwritten M own n n' t → M.read? σ' t = M.read? σ t

/-- Running the code between two scopes does what a computation does, and then goes on from the end
of the code with the result in place. -/
def Computes {α : Type} (M : Machine Nat) (own : Owners) (sc sc' : Scope) (eff : Eval α)
    (holds : Store Nat → α → Prop) : Prop :=
  ∀ (env : Env) (σ : Store Nat) (K : α → Env → Effect Value), Agrees M sc env σ →
    (∀ a env' σ', Agrees M sc' env' σ' → Frames M own sc.nextId sc'.nextId σ σ' → holds σ' a →
      env'.budget = env.budget → M.run env'.budget sc'.body.length σ' = K a env') →
    M.run env.budget sc.body.length σ = eff.run env >>= fun r => K r.1 r.2

theorem Overwritten.mono {M : Machine Nat} {own : Owners} {n n' m m' : Nat}
    (h : Overwritten M own n n' t) (hle : m ≤ n) (hle' : n' ≤ m') : Overwritten M own m m' t := by
  obtain ⟨s, hs, hn, hn', h⟩ := h
  exact ⟨s, hs, Nat.le_trans hle hn, Nat.lt_of_lt_of_le hn' hle', h⟩

namespace Frames

variable {M : Machine Nat} {own : Owners} {n n₁ n' : Nat} {σ σ₁ σ' : Store Nat}

theorem refl (M : Machine Nat) (own : Owners) (n : Nat) (σ : Store Nat) : Frames M own n n σ σ :=
  fun _ _ _ => rfl

theorem trans (h : Frames M own n n₁ σ σ₁) (h' : Frames M own n₁ n' σ₁ σ') (hle : n ≤ n₁)
    (hle' : n₁ ≤ n') : Frames M own n n' σ σ' := by
  intro t ht hno
  have h₁ : ¬ Overwritten M own n n₁ t := fun hc => hno (hc.mono (Nat.le_refl n) hle')
  have h₂ : ¬ Overwritten M own n₁ n' t := fun hc => hno (hc.mono hle (Nat.le_refl n'))
  exact (h' t (Nat.lt_of_lt_of_le ht hle) h₂).trans (h t ht h₁)

end Frames

theorem Agrees.of_locals {M : Machine Nat} {sc sc' : Scope} {σ σ' : Store Nat}
    (h : Agrees M sc env σ) (hl : ∀ x, sc'.locals.find? x = sc.locals.find? x)
    (hr : ∀ x b, sc.locals.find? x = some b → M.read? σ' b = M.read? σ b) :
    Agrees M sc' env σ' := by
  intro x
  have hx := h x
  rw [hl x]
  cases hb : sc.locals.find? x with
  | none => simpa [hb] using hx
  | some b =>
    rw [hb] at hx
    obtain ⟨v, hv, hread⟩ := hx
    exact ⟨v, hv, (hr x b hb).trans hread⟩

namespace CellMachine

variable {names : List String} {base : Nat} {own : Owners} {M : Machine Nat}

theorem eq_of_place?_eq (hM : CellMachine names base own M) (hd : M.place? d = some c)
    (ht : M.place? t = some c) :
    t = d ∨ own t = own d ∧ own d ≠ none := by
  rw [hM.place] at hd ht
  rcases hM.code.eq_of_cell?_eq ht hd with h | ⟨h, hne⟩
  · exact Or.inl h
  · exact Or.inr ⟨h, h ▸ hne⟩

theorem read?_put_of_unowned (hM : CellMachine names base own M) (hd : M.place? d = some c)
    (hown : own d = none) (σ : Store Nat) (v : Value) (ht : t ≠ d) :
    M.read? (σ.put c v) t = M.read? σ t := by
  rw [Machine.read?_put, if_neg]
  intro hc
  rcases hM.eq_of_place?_eq hd hc with h | ⟨_, h⟩
  · exact ht h
  · exact h hown

theorem read?_put_self (hd : M.place? d = some c) (σ : Store Nat) (v : Value) :
    M.read? (σ.put c v) d = some v := by
  rw [Machine.read?_put, if_pos hd]

variable {sc sc' : Scope} {op : Op} {left? right? : Option StmtId} {payload : Payload}

section

variable (hM : CellMachine names base own M)
include hM

theorem exists_place? {s : Statement} (hs : s ∈ M.code) (ht : s.isTracked = true) :
    ∃ c, M.place? s.id = some c := by
  rw [hM.place]
  exact hM.code.exists_cell? hs ht

theorem agrees_put (hsc : sc.Owned names base own) {σ : Store Nat} (hag : Agrees M sc env σ)
    (hd : M.place? sc.nextId = some c) (hown : own sc.nextId = none) (v : Value)
    (hl : ∀ x, sc'.locals.find? x = sc.locals.find? x) :
    Agrees M sc' env (σ.put c v) := by
  refine hag.of_locals hl fun x b hx => ?_
  exact hM.read?_put_of_unowned hd hown σ v (Nat.ne_of_lt (hsc.lt_of_bound hx))

theorem agrees_bind (hsc : sc.Owned names base own) {σ : Store Nat} (hag : Agrees M sc env σ)
    (hd : M.place? sc.nextId = some c) (hown : own sc.nextId = some x) (v : Value)
    (hl : ∀ y, sc'.locals.find? y = if y = x then some sc.nextId else sc.locals.find? y) :
    Agrees M sc' (env.set x v) (σ.put c v) := by
  intro y
  rw [hl]
  by_cases hy : y = x
  · rw [if_pos hy]
    exact ⟨v, if_pos hy, read?_put_self hd σ v⟩
  · have hyx : (env.set x v).locals y = env.locals y := if_neg hy
    rw [if_neg hy, hyx]
    have hy' := hag y
    cases hby : sc.locals.find? y with
    | none => simpa [hby] using hy'
    | some b =>
      rw [hby] at hy'
      obtain ⟨w, hw, hread⟩ := hy'
      refine ⟨w, hw, ?_⟩
      rw [Machine.read?_put, if_neg, hread]
      intro hc
      rcases hM.eq_of_place?_eq hd hc with heq | ⟨heq, _⟩
      · exact Nat.ne_of_lt (hsc.lt_of_bound hby) heq
      · rw [(hsc.bound y b hby).2, hown] at heq
        exact hy (Option.some.inj heq)

theorem frames_put {n : Nat} (hd : M.place? n = some c) (hown : own n = none) (σ : Store Nat)
    (v : Value) :
    Frames M own n (n + 1) σ (σ.put c v) :=
  fun _ ht _ => hM.read?_put_of_unowned hd hown σ v (Nat.ne_of_lt ht)

end

end CellMachine

theorem mapM_eq_some_iff {α β : Type} {f : α → Option β} {l : List α} :
    ∀ {l' : List β}, l.mapM f = some l' ↔ l.map f = l'.map some := by
  induction l with
  | nil =>
    intro l'
    cases l' <;> simp
  | cons a l ih =>
    intro l'
    rw [mapM_cons, map_cons]
    cases l' with
    | nil => cases f a <;> cases l.mapM f <;> simp
    | cons b bs =>
      cases hb : f a with
      | none => simp
      | some b' => cases hbs : l.mapM f <;> simp [hbs, ← ih]

theorem length_of_mapM_eq_some {α β : Type} {f : α → Option β} {l : List α} {l' : List β}
    (h : l.mapM f = some l') : l'.length = l.length := by
  simpa using (congrArg List.length (mapM_eq_some_iff.1 h)).symm

/-! ## Pieces of code -/

section Pieces

variable {names : List String} {base : Nat} {own : Owners} {M : Machine Nat}
  {sc sc₁ sc' : Scope} {α β γ : Type}

theorem Computes.refl {eff : Eval α} {holds : Store Nat → α → Prop}
    (h : ∀ env σ, Agrees M sc env σ → ∃ a, eff.run env = pure (a, env) ∧ holds σ a) :
    Computes M own sc sc eff holds := by
  intro env σ K hag hk
  obtain ⟨a, heff, ha⟩ := h env σ hag
  rw [heff, pure_bind]
  exact hk a env σ hag (.refl _ _ _ _) ha rfl

theorem Computes.bind {eff : Eval α} {eff' : Eval β} {holds : Store Nat → α → Prop}
    {holds' : Store Nat → β → Prop} {holds₂ : Store Nat → γ → Prop} (g : α → β → γ)
    (h : Computes M own sc sc₁ eff holds) (h' : Computes M own sc₁ sc' eff' holds')
    (hle : sc.nextId ≤ sc₁.nextId) (hle' : sc₁.nextId ≤ sc'.nextId)
    (hkeep : ∀ σ σ' a b, holds σ a → Frames M own sc₁.nextId sc'.nextId σ σ' → holds' σ' b →
      holds₂ σ' (g a b)) :
    Computes M own sc sc' (do let a ← eff; let b ← eff'; return g a b) holds₂ := by
  intro env σ K hag hk
  have heq : ((do let a ← eff; let b ← eff'; return g a b : Eval γ).run env >>= fun r =>
      K r.1 r.2) = eff.run env >>= fun r => eff'.run r.2 >>= fun r' => K (g r.1 r'.1) r'.2 := by
    simp
  rw [heq]
  refine h env σ (fun a env₁ => eff'.run env₁ >>= fun r' => K (g a r'.1) r'.2) hag
    fun a env₁ σ₁ hag₁ hfr ha hb => ?_
  refine h' env₁ σ₁ (fun b env₂ => K (g a b) env₂) hag₁ fun b env₂ σ₂ hag₂ hfr' hb' hbudget => ?_
  exact hk (g a b) env₂ σ₂ hag₂ (hfr.trans hfr' hle hle') (hkeep σ₁ σ₂ a b ha hfr' hb')
    (hbudget.trans hb)

theorem Computes.map {eff : Eval α} {holds : Store Nat → α → Prop} {holds' : Store Nat → β → Prop}
    (g : α → β) (h : Computes M own sc sc' eff holds) (hg : ∀ σ a, holds σ a → holds' σ (g a)) :
    Computes M own sc sc' (g <$> eff) holds' := by
  intro env σ K hag hk
  have heq : ((g <$> eff).run env >>= fun r => K r.1 r.2) =
      eff.run env >>= fun r => K (g r.1) r.2 := by
    simp
  rw [heq]
  exact h env σ (fun a env' => K (g a) env') hag fun a env' σ' hag' hfr ha hb =>
    hk (g a) env' σ' hag' hfr (hg σ' a ha) hb

theorem Computes.congr {eff eff' : Eval α} {holds : Store Nat → α → Prop}
    (h : Computes M own sc sc' eff holds)
    (heq : ∀ env σ, Agrees M sc env σ → eff'.run env = eff.run env) :
    Computes M own sc sc' eff' holds := by
  intro env σ K hag hk
  rw [heq env σ hag]
  exact h env σ K hag hk

variable {op : Op} {left? right? : Option StmtId} {payload : Payload}

theorem Computes.emit {eff : Eval α} {holds : Store Nat → α → Prop} (f : α → Effect Value)
    (hM : CellMachine names base own M)
    (h : Computes M own sc sc₁ eff holds) (hsc : sc₁.Owned names base own)
    (hle : sc.nextId ≤ sc₁.nextId) (hp : (sc₁.emit op left? right? payload).2.body <+: M.code)
    (hown : own sc₁.nextId = none) (hdef : op.definesValue = true)
    (hf : ∀ σ a, holds σ a → ∃ values,
      (reads ⟨sc₁.nextId, op, left?, right?, payload, none, none, none⟩).mapM
        (M.read? σ) = some values ∧ perform M.activation op payload values = .value <$> f a) :
    Computes M own sc (sc₁.emit op left? right? payload).2
      (do let a ← eff; f a) fun σ v => M.read? σ sc₁.nextId = some v := by
  intro env σ K hag hk
  have hs := Scope.getElem?_of_emit hp
  obtain ⟨c, hcell⟩ := hM.exists_place? (mem_of_getElem? hs)
    (by simp [isTracked, hdef])
  have heq : ((do let a ← eff; f a : Eval Value).run env >>= fun r => K r.1 r.2) =
      eff.run env >>= fun r => f r.1 >>= fun v => K v r.2 := by
    simp
  rw [heq]
  refine h env σ (fun a env₁ => f a >>= fun v => K v env₁) hag
    fun a env₁ σ₁ hag₁ hfr ha hb => ?_
  obtain ⟨values, hvalues, hperform⟩ := hf σ₁ a ha
  rw [Machine.run_of_value hs hvalues hperform hcell]
  refine congrArg (f a >>= ·) (funext fun v => ?_)
  have hag' : Agrees M (sc₁.emit op left? right? payload).2 env₁ (σ₁.put c v) :=
    hM.agrees_put hsc hag₁ hcell hown v fun _ => rfl
  have hfr' := hfr.trans (hM.frames_put hcell hown σ₁ v) hle (Nat.le_succ _)
  rw [← hk v env₁ _ hag' hfr' (CellMachine.read?_put_self hcell σ₁ v) hb, Scope.body_emit,
    length_append]
  rfl

theorem Computes.copy {eff : Eval α} {holds holds' : Store Nat → α → Prop}
    (hM : CellMachine names base own M) (h : Computes M own sc sc₁ eff holds)
    (hsc : sc₁.Owned names base own) (hle : sc.nextId ≤ sc₁.nextId)
    (hp : (sc₁.emit op left? right? payload).2.body <+: M.code)
    (hown : own sc₁.nextId = none) (hdef : op.definesValue = true)
    (hcopy : ∀ w, perform M.activation op payload [w] = pure (.value w))
    (hpost : ∀ σ a, holds σ a → ∃ w,
      (reads ⟨sc₁.nextId, op, left?, right?, payload, none, none, none⟩).mapM
        (M.read? σ) = some [w] ∧
      ∀ σ', (∀ t, t < sc₁.nextId → M.read? σ' t = M.read? σ t) →
        M.read? σ' sc₁.nextId = some w → holds' σ' a) :
    Computes M own sc (sc₁.emit op left? right? payload).2 eff holds' := by
  intro env σ K hag hk
  have hs := Scope.getElem?_of_emit hp
  obtain ⟨c, hcell⟩ := hM.exists_place? (mem_of_getElem? hs)
    (by simp [isTracked, hdef])
  refine h env σ K hag fun a env₁ σ₁ hag₁ hfr ha hb => ?_
  obtain ⟨w, hreads, hpost⟩ := hpost σ₁ a ha
  have hperform : perform M.activation op payload [w] = .value <$> (pure w : Effect Value) :=
    hcopy w
  rw [Machine.run_of_value hs hreads hperform hcell, pure_bind]
  have hag' : Agrees M (sc₁.emit op left? right? payload).2 env₁ (σ₁.put c w) :=
    hM.agrees_put hsc hag₁ hcell hown w fun _ => rfl
  have hfr' := hfr.trans (hM.frames_put hcell hown σ₁ w) hle (Nat.le_succ _)
  have hpost' : holds' (σ₁.put c w) a := hpost _
    (fun t ht => hM.read?_put_of_unowned hcell hown σ₁ w (Nat.ne_of_lt ht))
    (CellMachine.read?_put_self hcell σ₁ w)
  rw [← hk a env₁ _ hag' hfr' hpost' hb, Scope.body_emit, length_append]
  rfl

theorem Computes.emit_nothing {eff : Eval α} {holds : Store Nat → α → Prop}
    (f : α → Effect Unit) (h : Computes M own sc sc₁ eff holds)
    (hp : (sc₁.emit op left? right? payload).2.body <+: M.code)
    (hf : ∀ σ a, holds σ a → ∃ values,
      (reads ⟨sc₁.nextId, op, left?, right?, payload, none, none, none⟩).mapM
        (M.read? σ) = some values ∧
      perform M.activation op payload values = f a >>= fun _ => pure .nothing) :
    Computes M own sc (sc₁.emit op left? right? payload).2
      (do let a ← eff; (f a : Eval Unit); return a) holds := by
  intro env σ K hag hk
  have hs := Scope.getElem?_of_emit hp
  have heq : ((do let a ← eff; (f a : Eval Unit); return a : Eval α).run env >>=
      fun r => K r.1 r.2) = eff.run env >>= fun r => f r.1 >>= fun _ => K r.1 r.2 := by
    simp
  rw [heq]
  refine h env σ (fun a env₁ => f a >>= fun _ => K a env₁) hag
    fun a env₁ σ₁ hag₁ hfr ha hb => ?_
  obtain ⟨values, hvalues, hperform⟩ := hf σ₁ a ha
  rw [Machine.run_of_nothing hs hvalues hperform]
  refine congrArg (f a >>= ·) (funext fun _ => ?_)
  have hfr' : Frames M own sc.nextId (sc₁.nextId + 1) σ σ₁ := fun t ht hno =>
    hfr t ht fun hc => hno (hc.mono (Nat.le_refl _) (Nat.le_succ _))
  rw [← hk a env₁ σ₁ (hag₁.of_locals (fun _ => rfl) fun _ _ _ => rfl) hfr' ha hb, Scope.body_emit,
    length_append]
  rfl

theorem Computes.assign {eff : Eval Value} {v old : StmtId} (hM : CellMachine names base own M)
    (h : Computes M own sc sc₁ eff fun σ a => M.read? σ v = some a)
    (hsc : sc₁.Owned names base own) (hle : sc.nextId ≤ sc₁.nextId)
    (hp : (sc₁.emit .assignVar (some v) (some old) (.name x)).2.body <+: M.code)
    (hown : own sc₁.nextId = some x) :
    Computes M own sc
      ((sc₁.emit .assignVar (some v) (some old) (.name x)).2.rebind x sc₁.nextId)
      (do let a ← eff; modify (·.set x a); return a) fun σ a => M.read? σ v = some a := by
  intro env σ K hag hk
  have hs := Scope.getElem?_of_emit hp
  have hmem := mem_of_getElem? hs
  obtain ⟨c, hcell⟩ := hM.exists_place? hmem rfl
  have heq : ((do let a ← eff; modify (·.set x a); return a : Eval Value).run env >>=
      fun r => K r.1 r.2) = eff.run env >>= fun r => K r.1 (r.2.set x r.1) := by
    simp
  rw [heq]
  refine h env σ (fun a env₁ => K a (env₁.set x a)) hag fun a env₁ σ₁ hag₁ hfr ha hb => ?_
  have hreads : (reads ⟨sc₁.nextId, .assignVar, some v, some old, .name x, none, none,
      none⟩).mapM (M.read? σ₁) = some [a] := by
    simp [reads, ha]
  have hperform : perform M.activation .assignVar (.name x) [a] =
      .value <$> (pure a : Effect Value) := rfl
  rw [Machine.run_of_value hs hreads hperform hcell, pure_bind]
  have hself : ∀ t, M.place? t = some c → M.read? (σ₁.put c a) t = some a := fun t ht =>
    CellMachine.read?_put_self ht σ₁ a
  have hother : ∀ t, M.place? t ≠ some c → M.read? (σ₁.put c a) t = M.read? σ₁ t := fun t ht => by
    rw [Machine.read?_put, if_neg ht]
  have hag' : Agrees M ((sc₁.emit .assignVar (some v) (some old) (.name x)).2.rebind x sc₁.nextId)
      (env₁.set x a) (σ₁.put c a) :=
    hM.agrees_bind hsc hag₁ hcell hown a fun y => Scope.locals_rebind ..
  have hfr' : Frames M own sc.nextId (sc₁.nextId + 1) σ (σ₁.put c a) := by
    intro t ht hno
    have ht₁ := hfr t ht fun hc => hno (hc.mono (Nat.le_refl _) (Nat.le_succ _))
    by_cases hc : M.place? t = some c
    · -- The cell is written, but with the value that it has.
      have hleft : some v = some t := by
        refine Decidable.byContradiction fun hne => hno ⟨_, hmem, hle, Nat.lt_succ_self _, ?_, ?_, ?_⟩
        · simp [hown]
        · exact hcell.trans hc.symm
        · exact hne
      cases hleft
      rw [hself v hc, ← ht₁, ha]
    · rw [hother t hc, ht₁]
  have hpost : M.read? (σ₁.put c a) v = some a := by
    by_cases hc : M.place? v = some c
    · exact hself v hc
    · rw [hother v hc, ha]
  rw [← hk a (env₁.set x a) _ hag' hfr' hpost hb, Scope.body_rebind, Scope.body_emit,
    length_append]
  rfl

end Pieces

/-! ## What is emitted -/

/-- Code without labels is emitted. The owned statements in it are assignments to certain locals. -/
structure Emits (names : List String) (base : Nat) (assigned : String → Prop) (sc : Scope)
    (own : Owners) (sc' : Scope) (own' : Owners) : Prop where
  appends : sc.Appends [] sc'
  agree : AgreeBelow sc.nextId own own'
  owned : sc'.Owned names base own'
  assignments : ∀ s ∈ sc'.body, sc.nextId ≤ s.id → ∀ x, own' s.id = some x →
    s.op = .assignVar ∧ assigned x

namespace Emits

variable {names : List String} {base : Nat} {assigned assigned' : String → Prop}
  {sc sc₁ sc' : Scope} {own own₁ own' : Owners}

theorem refl (h : sc.Owned names base own) : Emits names base assigned sc own sc own :=
  ⟨.refl sc, .refl _ _, h, fun _ hs hle => absurd (h.id_lt hs) (Nat.not_lt.2 hle)⟩

theorem mono (h : Emits names base assigned sc own sc' own') (ha : ∀ x, assigned x → assigned' x) :
    Emits names base assigned' sc own sc' own' :=
  ⟨h.appends, h.agree, h.owned, fun s hs hle x hx =>
    (h.assignments s hs hle x hx).imp_right (ha x)⟩

theorem trans (h : Emits names base assigned sc own sc₁ own₁)
    (h' : Emits names base assigned sc₁ own₁ sc' own') :
    Emits names base assigned sc own sc' own' := by
  refine ⟨h.appends.trans h'.appends, h.agree.trans h'.agree h.appends.nextId_le, h'.owned, ?_⟩
  intro s hs hle x hx
  by_cases hlt : s.id < sc₁.nextId
  · have hs₁ : s ∈ sc₁.body :=
      h'.owned.body.mem_of_id_lt h'.appends.isPrefix hs (h.owned.next ▸ hlt)
    exact h.assignments s hs₁ hle x (h'.agree _ hlt ▸ hx)
  · exact h'.assignments s hs (Nat.not_lt.1 hlt) x hx

theorem emit (h : sc.Owned names base own) {op : Op} (left? right? : Option StmtId)
    (payload : Payload) (hm : op.isMerge = false) (hl : op ≠ .label) :
    Emits names base assigned sc own (sc.emit op left? right? payload).2
      (own.set sc.nextId none) := by
  refine ⟨.emit sc _ _ _ hl, .set _ _ _, h.emit _ _ _ hm (by simp) (by simp), ?_⟩
  intro s hs hle x hx
  rcases List.mem_append.1 hs with hs | hs
  · exact absurd (h.id_lt hs) (Nat.not_lt.2 hle)
  · obtain rfl := List.mem_singleton.1 hs
    rw [Owners.set_self] at hx
    cases hx

theorem assign (h : sc.Owned names base own) (hx : x ∈ names) (ha : assigned x) (v old : StmtId) :
    Emits names base assigned sc own
      ((sc.emit .assignVar (some v) (some old) (.name x)).2.rebind x sc.nextId)
      (own.set sc.nextId (some x)) := by
  have hemit : (sc.emit .assignVar (some v) (some old) (.name x)).2.Owned names base
      (own.set sc.nextId (some x)) := by
    refine h.emit _ _ _ rfl (fun y hy => ?_) fun _ => rfl
    cases hy
    exact hx
  refine ⟨.emit sc _ _ _ (by simp), .set _ _ _, hemit.rebind ?_ (own.set_self ..), ?_⟩
  · exact ⟨_, mem_append_right _ mem_cons_self, rfl⟩
  · intro s hs hle y hy
    rcases List.mem_append.1 hs with hs | hs
    · exact absurd (h.id_lt hs) (Nat.not_lt.2 hle)
    · obtain rfl := List.mem_singleton.1 hs
      rw [Owners.set_self] at hy
      cases hy
      exact ⟨rfl, ha⟩

end Emits

structure Completes (names : List String) (base : Nat) (act : Activation) (sc : Scope)
    (own : Owners) (M : Machine Nat) (own' : Owners) : Prop where
  machine : CellMachine names base own' M
  activation : M.activation = act
  isPrefix : sc.body <+: M.code
  agree : AgreeBelow sc.nextId own own'

namespace Completes

variable {names : List String} {base : Nat} {act : Activation} {sc sc' : Scope}
  {own own₁ own' : Owners} {M : Machine Nat}

theorem of_emits {assigned : String → Prop} (h : Completes names base act sc' own₁ M own')
    (he : Emits names base assigned sc own sc' own₁) : Completes names base act sc own M own' :=
  ⟨h.machine, h.activation, he.appends.isPrefix.trans h.isPrefix,
    he.agree.trans h.agree he.appends.nextId_le⟩

theorem owned (h : Completes names base act sc own M own') (hsc : sc.Owned names base own) :
    sc.Owned names base own' :=
  hsc.congr h.agree

end Completes

end MiniJava.Ssa
