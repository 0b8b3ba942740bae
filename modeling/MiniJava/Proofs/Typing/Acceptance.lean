import MiniJava.Proofs.Lowering.Joins
import MiniJava.Proofs.Typing.Bodies
import MiniJava.Proofs.Typing.Representation

/-!
# Code that passes the check, piece by piece

Lowering appends statements, and the check goes through them in the same order. So the question when
the code of a program passes the check can be asked for the code so far: there is one way to type it,
and each further statement either has a type by the rules or stops the check. Between the pieces, each
local is bound to a statement of the type that the local was declared with.
-/

namespace MiniJava

open Ast Ssa

variable {x : String} {d : VarDecl} {op : Op} {left? right? : Option StmtId} {payload : Payload}

/-! ## Accepted code -/

namespace TypeContext

variable {cx : TypeContext} {mx : MethodContext} {body code : Body}
  {ty ty' ty'' : StmtId → Option TypeId} {s : Statement} {v : StmtId} {t : TypeId} {σ τ : String}

def Accepts (cx : TypeContext) (mx : MethodContext) (body : Body) (ty : StmtId → Option TypeId) :
    Prop :=
  ∃ body' typed, sweep (cx.checkStmt mx) [] body = (body', .ok typed) ∧ typed.type? = ty

theorem Accepts.unique (h : cx.Accepts mx body ty) (h' : cx.Accepts mx body ty') : ty = ty' := by
  obtain ⟨_, typed, hs, rfl⟩ := h
  obtain ⟨_, typed', hs', rfl⟩ := h'
  rw [hs] at hs'
  cases hs'
  rfl

theorem accepts_nil : cx.Accepts mx [] fun _ => none := ⟨[], [], rfl, rfl⟩

theorem Accepts.of_append (h : cx.Accepts mx (body ++ code) ty') :
    ∃ ty, cx.Accepts mx body ty := by
  obtain ⟨_, _, hs, _⟩ := h
  obtain ⟨bs₁, typed₁, _, h₁, _⟩ := sweep_append_eq_ok.1 hs
  exact ⟨_, bs₁, typed₁, h₁, rfl⟩

theorem accepts_concat : cx.Accepts mx (body ++ [s]) ty' ↔ ∃ ty type, cx.Accepts mx body ty ∧
    cx.Follows mx ty s type ∧ ty' = Function.update ty s.id (some type) := by
  have hupdate : ∀ (type : TypeId) (typed : TypedStmts), TypedStmts.type? ((s.id, type) :: typed) =
      Function.update typed.type? s.id (some type) := by
    intro type typed
    funext id
    rw [type?_cons, Function.update_apply]
  constructor
  · rintro ⟨body', typed', hs, rfl⟩
    obtain ⟨bs₁, typed, bs₂, h₁, h₂, rfl⟩ := sweep_append_eq_ok.1 hs
    obtain ⟨s', typed₁, rest, rfl, hs, hrest⟩ := sweep_cons_eq_ok h₂
    cases hrest
    obtain ⟨type, hfollows, _, rfl⟩ := checkStmt_eq_ok.1 hs
    exact ⟨_, type, ⟨bs₁, typed, h₁, rfl⟩, hfollows, hupdate type typed⟩
  · rintro ⟨_, type, ⟨body', typed, hbody, rfl⟩, hfollows, rfl⟩
    have hs := checkStmt_eq_ok.2 ⟨type, hfollows, rfl, rfl⟩
    refine ⟨_, _, sweep_append_eq_ok.2 ⟨body', typed, [annotate s type], hbody, ?_, rfl⟩,
      hupdate type typed⟩
    rw [sweep, hs]
    rfl

theorem Accepts.exists_stmt (h : cx.Accepts mx body ty) (ht : ty v = some t) :
    ∃ s ∈ body, s.id = v := by
  obtain ⟨_, typed, hs, rfl⟩ := h
  exact types_of_sweep (P := fun id _ => ∃ s ∈ body, s.id = id)
    (fun _ s hs _ _ _ => ⟨s, hs, rfl⟩) (by simp [TypedStmts.type?]) hs v t ht

/-! ## Types and their names -/

def Grows (ty ty' : StmtId → Option TypeId) : Prop := ∀ v t, ty v = some t → ty' v = some t

theorem Grows.refl (ty : StmtId → Option TypeId) : Grows ty ty := fun _ _ h => h

theorem Grows.trans (h : Grows ty ty') (h' : Grows ty' ty'') : Grows ty ty'' :=
  fun v t hv => h' v t (h v t hv)

def Typed (cx : TypeContext) (ty : StmtId → Option TypeId) (v : StmtId) (τ : String) : Prop :=
  ∃ t, ty v = some t ∧ cx.types.lookup? τ = some t

theorem Typed.mono (h : cx.Typed ty v τ) (hle : Grows ty ty') : cx.Typed ty' v τ := by
  obtain ⟨t, ht, hτ⟩ := h
  exact ⟨t, hle v t ht, hτ⟩

theorem Typed.eq_some (h : cx.Typed ty v τ) (hτ : cx.types.lookup? τ = some t) : ty v = some t := by
  obtain ⟨t', ht, hτ'⟩ := h
  rw [ht, ← hτ', hτ]

theorem Typed.eq_name (h : cx.Typed ty v τ) (hl : cx.Lawful) (ht : ty v = some t)
    (hσ : cx.types.lookup? σ = some t) : τ = σ := by
  obtain ⟨t', ht', hτ⟩ := h
  obtain rfl := Option.mem_unique ht' ht
  exact hl.hierarchy.name_unique hτ hσ

theorem Typed.lookup?_eq (h : cx.Typed ty v τ) (ht : ty v = some t) :
    cx.types.lookup? τ = some t := by
  obtain ⟨t', ht', hτ⟩ := h
  rw [hτ, ← ht', ht]

/-- What names mean in the source is what the rules know about a method. -/
structure Knowing (cx : TypeContext) (mx : MethodContext) (Γ : Context) : Prop where
  represents : cx.Represents Γ.program
  this? : mx.this? = Γ.this?.bind cx.types.lookup?
  owner : ∀ owner, Γ.this? = some owner → ∃ decl ∈ Γ.program.classes, decl.name = owner

end TypeContext

/-! ## Scopes -/

namespace Ssa.Scope

open TypeContext

variable {cx : TypeContext} {mx : MethodContext} {Γ Γ' : Context} {sc sc' : Scope}
  {ty ty' : StmtId → Option TypeId} {α β : Type} {J : α → Prop}
  {R : (StmtId → Option TypeId) → α → Prop} {v : StmtId} {τ : String}

structure Binds (cx : TypeContext) (Γ : Context) (bindings : String → Option StmtId)
    (ty : StmtId → Option TypeId) : Prop where
  bound : ∀ x v, bindings x = some v → ∃ d, Γ.local? x = some d ∧ cx.Typed ty v d.type.text
  unbound : ∀ x, bindings x = none → Γ.local? x = none

/-- The code so far is accepted, and locals are bound to statements of their types. -/
structure Fits (cx : TypeContext) (mx : MethodContext) (Γ : Context) (sc : Scope)
    (ty : StmtId → Option TypeId) : Prop extends Binds cx Γ sc.locals.find? ty where
  accepts : cx.Accepts mx sc.body ty
  bounded : ∀ s ∈ sc.body, s.id < sc.nextId

/-- The code so far is accepted if and only if a part of the source is well typed, as `J` says. Then
`R` holds between the types that the check finds and those that the rules of the source give. -/
structure Agrees (cx : TypeContext) (mx : MethodContext) (Γ : Context) (sc : Scope) (J : α → Prop)
    (R : (StmtId → Option TypeId) → α → Prop) : Prop where
  complete : ∀ a, J a → ∃ ty, sc.Fits cx mx Γ ty ∧ R ty a
  sound : ∀ ty, cx.Accepts mx sc.body ty → sc.Fits cx mx Γ ty ∧ ∃ a, J a ∧ R ty a

namespace Binds

variable {bindings : String → Option StmtId}

theorem mono (h : Binds cx Γ bindings ty) (hle : Grows ty ty') : Binds cx Γ bindings ty' := by
  refine ⟨fun x v hx => ?_, h.unbound⟩
  obtain ⟨d, hd, hv⟩ := h.bound x v hx
  exact ⟨d, hd, hv.mono hle⟩

theorem update (h : Binds cx Γ bindings ty) (hx : Γ.local? x = some d)
    (hv : cx.Typed ty v d.type.text) {bindings' : String → Option StmtId}
    (hb : ∀ y, bindings' y = if y = x then some v else bindings y) : Binds cx Γ bindings' ty := by
  refine ⟨fun y w hy => ?_, fun y hy => ?_⟩
  · rw [hb] at hy
    split at hy
    · next heq =>
      cases hy
      exact ⟨d, heq ▸ hx, hv⟩
    · exact h.bound y w hy
  · rw [hb] at hy
    split at hy
    · cases hy
    · exact h.unbound y hy

end Binds

namespace Fits

section

variable (h : sc.Fits cx mx Γ ty)
include h

theorem lt_nextId {t : TypeId} (ht : ty v = some t) : v < sc.nextId := by
  obtain ⟨s, hs, rfl⟩ := h.accepts.exists_stmt ht
  exact h.bounded s hs

theorem grows_update (type : TypeId) : Grows ty (Function.update ty sc.nextId (some type)) := by
  intro v t ht
  rw [Function.update_of_ne (Nat.ne_of_lt (h.lt_nextId ht)), ht]

theorem rebound (hb : sc'.body = sc.body) (hn : sc'.nextId = sc.nextId)
    (hl : Binds cx Γ sc'.locals.find? ty) : sc'.Fits cx mx Γ ty :=
  ⟨hl, hb ▸ h.accepts, hb ▸ hn ▸ h.bounded⟩

theorem withShadow (shadow? : Option Bindings) : Fits cx mx Γ { sc with shadow? } ty :=
  h.rebound rfl rfl h.toBinds

theorem rebind (hx : Γ.local? x = some d) (hv : cx.Typed ty v d.type.text) :
    (sc.rebind x v).Fits cx mx Γ ty :=
  h.rebound rfl rfl (h.toBinds.update hx hv fun _ => locals_rebind ..)

theorem emit {type : TypeId}
    (hs : cx.Follows mx ty ⟨sc.nextId, op, left?, right?, payload, none, none, none⟩ type) :
    (sc.emit op left? right? payload).2.Fits cx mx Γ
      (Function.update ty sc.nextId (some type)) := by
  refine ⟨h.toBinds.mono (h.grows_update type), accepts_concat.2 ⟨ty, type, h.accepts, hs, rfl⟩,
    fun s hs => ?_⟩
  rcases List.mem_append.1 hs with hs | hs
  · exact Nat.lt_succ_of_lt (h.bounded s hs)
  · obtain rfl := List.mem_singleton.1 hs
    exact Nat.lt_succ_self _

theorem agrees : sc.Agrees cx mx Γ (fun _ : Unit => True) fun ty' _ => ty' = ty := by
  refine ⟨fun _ _ => ⟨ty, h, rfl⟩, fun ty' hty' => ?_⟩
  obtain rfl := h.accepts.unique hty'
  exact ⟨h, (), trivial, rfl⟩

end

end Fits

namespace Agrees

section

variable (h : sc.Agrees cx mx Γ J R)
include h

theorem imp {J' : β → Prop} {R' : (StmtId → Option TypeId) → β → Prop}
    (hcomplete : ∀ b, J' b → ∃ a, J a ∧ ∀ ty, R ty a → R' ty b)
    (hsound : ∀ a ty, J a → R ty a → ∃ b, J' b ∧ R' ty b) : sc.Agrees cx mx Γ J' R' := by
  refine ⟨fun b hb => ?_, fun ty hty => ?_⟩
  · obtain ⟨a, ha, hR⟩ := hcomplete b hb
    obtain ⟨ty, hfits, hty⟩ := h.complete a ha
    exact ⟨ty, hfits, hR ty hty⟩
  · obtain ⟨hfits, a, ha, hR⟩ := h.sound ty hty
    exact ⟨hfits, hsound a ty ha hR⟩

/-- **Code after code.** Names may mean something else from there on. -/
theorem next {J' : β → Prop} {K : α → β → Prop} {R' : (StmtId → Option TypeId) → β → Prop}
    (hp : sc.body <+: sc'.body) (hJ : ∀ b, J' b ↔ ∃ a, J a ∧ K a b)
    (hnext : ∀ ty a, sc.Fits cx mx Γ ty → R ty a → sc'.Agrees cx mx Γ' (K a) R') :
    sc'.Agrees cx mx Γ' J' R' := by
  refine ⟨fun b hb => ?_, fun ty' hty' => ?_⟩
  · obtain ⟨a, ha, hb⟩ := (hJ b).1 hb
    obtain ⟨ty, hfits, hR⟩ := h.complete a ha
    exact (hnext ty a hfits hR).complete b hb
  · obtain ⟨code, hcode⟩ := hp
    obtain ⟨ty, hty⟩ := (hcode ▸ hty' : cx.Accepts mx (sc.body ++ code) ty').of_append
    obtain ⟨hfits, a, ha, hR⟩ := h.sound ty hty
    obtain ⟨hfits', b, hb, hR'⟩ := (hnext ty a hfits hR).sound ty' hty'
    exact ⟨hfits', b, (hJ b).2 ⟨a, ha, hb⟩, hR'⟩

theorem extend {R' : (StmtId → Option TypeId) → α → Prop} (hp : sc.body <+: sc'.body)
    (hnext : ∀ ty a, sc.Fits cx mx Γ ty → R ty a → ∃ ty', sc'.Fits cx mx Γ' ty' ∧ R' ty' a) :
    sc'.Agrees cx mx Γ' J R' := by
  refine ⟨fun a ha => ?_, fun ty' hty' => ?_⟩
  · obtain ⟨ty, hfits, hR⟩ := h.complete a ha
    exact hnext ty a hfits hR
  · obtain ⟨code, hcode⟩ := hp
    obtain ⟨ty, hty⟩ := (hcode ▸ hty' : cx.Accepts mx (sc.body ++ code) ty').of_append
    obtain ⟨hfits, a, ha, hR⟩ := h.sound ty hty
    obtain ⟨ty'', hfits', hR'⟩ := hnext ty a hfits hR
    obtain rfl := hfits'.accepts.unique hty'
    exact ⟨hfits', a, ha, hR'⟩

theorem withShadow (shadow? : Option Bindings) : Agrees cx mx Γ { sc with shadow? } J R :=
  h.extend List.prefix_rfl fun ty _ hfits hR => ⟨ty, hfits.withShadow shadow?, hR⟩

/-- **One more statement.** -/
theorem emit {J' : β → Prop} {R' : (StmtId → Option TypeId) → β → Prop}
    (hcomplete : ∀ b, J' b → ∃ a, J a ∧ ∀ ty, R ty a → ∃ t, cx.Follows mx ty ⟨sc.nextId, op, left?, right?, payload, none, none, none⟩ t ∧ ∀ ty', ty' sc.nextId = some t → Grows ty ty' → R' ty' b)
    (hsound : ∀ ty a t, J a → R ty a → cx.Follows mx ty ⟨sc.nextId, op, left?, right?, payload, none, none, none⟩ t → ∃ b, J' b ∧ ∀ ty', ty' sc.nextId = some t → Grows ty ty' → R' ty' b) :
    (sc.emit op left? right? payload).2.Agrees cx mx Γ J' R' := by
  refine ⟨fun b hb => ?_, fun ty' hty' => ?_⟩
  · obtain ⟨a, ha, hR⟩ := hcomplete b hb
    obtain ⟨ty, hfits, hty⟩ := h.complete a ha
    obtain ⟨t, hfollows, hR'⟩ := hR ty hty
    exact ⟨_, hfits.emit hfollows, hR' _ (Function.update_self ..) (hfits.grows_update t)⟩
  · obtain ⟨ty, t, hty, hfollows, rfl⟩ := accepts_concat.1 hty'
    obtain ⟨hfits, a, ha, hR⟩ := h.sound ty hty
    obtain ⟨b, hb, hR'⟩ := hsound ty a t ha hR hfollows
    exact ⟨hfits.emit hfollows, b, hb, hR' _ (Function.update_self ..) (hfits.grows_update t)⟩

end

end Agrees

end Ssa.Scope

end MiniJava
