import MiniJava.Proofs.Typing.Acceptance
import MiniJava.Proofs.Typing.Grounding

/-!
# Types of lowered expressions

The code of an expression passes the check if and only if the expression has a type, and the statement
that holds its value has the same one. What lowering adds does not matter: a copy has the type of what
it copies, an argument that of its value, and a field that is named without target is looked up in
`this`.
-/

namespace MiniJava

open Ast Ssa TypeContext List Option

variable {left right : Option TypeId} {τs : List String} {target value : Expr} {t : StmtId}

/-! ## Members and operators -/

theorem Ast.Program.Inherits.exists_own {p : Ast.Program} {α : Type} {own : ClassDecl → Option α}
    {σ : String} {a : α} (h : p.Inherits own σ a) : ∃ c ∈ p.classes, own c = some a := by
  induction h with
  | own hc h => exact ⟨_, hc, h⟩
  | inherited _ _ _ _ ih => exact ih

namespace TypeContext.Represents

variable {cx : TypeContext} {ast : Ast.Program} {σ x : String} {type : TypeName}

theorem of_inherits {α : Type} {own : ClassDecl → Option α} {a : α} (h : cx.Represents ast)
    (ha : ast.Inherits own σ a) :
    ∃ id, cx.types.lookup? σ = some id ∧ cx.types.isObject id = true ∧ id ≠ .intArray := by
  obtain ⟨decl, hdecl, rfl⟩ : ∃ decl ∈ ast.classes, decl.name = σ := by
    cases ha with
    | own hc _ => exact ⟨_, hc, rfl⟩
    | inherited hc _ _ _ => exact ⟨_, hc, rfl⟩
  obtain ⟨id, hid⟩ := h.isType_iff.1 (Or.inr ⟨decl, hdecl, rfl⟩)
  obtain ⟨_, _, parent, _, _, hp, _⟩ := h.of_decl hdecl hid
  obtain ⟨_, hget⟩ := TypeTable.exists_get?_of_parent? hp
  refine ⟨id, hid, TypeTable.isObject_eq hget, ?_⟩
  rintro rfl
  have hname := h.lawful.hierarchy.name_unique hid h.lawful.hierarchy.lookup?_intArray
  exact h.name_not_mem_builtinNames hdecl (by rw [hname]; decide)

theorem lookup?_of_hasField (h : cx.Represents ast) (hf : ast.HasField σ x type) :
    ∃ id, cx.types.lookup? type.text = some id := by
  obtain ⟨c, hc, hown⟩ := hf.exists_own
  obtain ⟨d, hd, rfl⟩ := map_eq_some_iff.1 hown
  exact h.isType_iff.1 ((h.resolves hc).fields d (mem_of_find?_eq_some hd))

end TypeContext.Represents

theorem binaryFollows_of_signature? {t : TypeTable} {cs : List ClassDef} (h : t.Hierarchy cs)
    {op : BinOp} {σ τ : String} (hop : signature? op = some (σ, τ)) {type : TypeId} :
    BinaryFollows left right type op ↔
      left = t.lookup? σ ∧ right = t.lookup? σ ∧ t.lookup? τ = some type := by
  cases op <;> cases hop <;>
    simp only [BinaryFollows, h.lookup?_int, h.lookup?_boolean, some.injEq, eq_comm]

theorem binaryFollows_of_equality {op : BinOp} (hop : signature? op = none) {type : TypeId} :
    BinaryFollows left right type op ↔
      left.isSome = true ∧ right.isSome = true ∧ type = .boolean := by
  cases op with
  | eq | ne => rfl
  | _ => cases hop

/-! ## Statements that compute expressions -/

section Operands

variable {α β γ : Type} {R : α → γ → Prop} {S : β → γ → Prop} {a b c : α} {bs : List β}
  {cs : List γ}

theorem forall₂_one (h : List.Forall₂ R [a] cs) (h' : List.Forall₂ S bs cs) :
    ∃ v σ, bs = [v] ∧ cs = [σ] ∧ R a σ ∧ S v σ := by
  obtain ⟨σ, rfl, ha⟩ := of_forall₂_one h
  obtain ⟨v, rfl, hv⟩ := of_forall₂_one h'.flip
  exact ⟨v, σ, rfl, rfl, ha, hv⟩

theorem forall₂_two (h : List.Forall₂ R [a, b] cs) (h' : List.Forall₂ S bs cs) :
    ∃ v w σ τ, bs = [v, w] ∧ cs = [σ, τ] ∧ R a σ ∧ R b τ ∧ S v σ ∧ S w τ := by
  obtain ⟨σ, τ, rfl, ha, hb⟩ := of_forall₂_two h
  obtain ⟨v, w, rfl, hv, hw⟩ := of_forall₂_two h'.flip
  exact ⟨v, w, σ, τ, rfl, rfl, ha, hb, hv, hw⟩

end Operands

section Nodes

variable {cx : TypeContext} {mx : MethodContext} {Γ : Context} {op : Op} {payload : Payload}
  {e : Expr} {τ : String}

def nodeStmt (n : StmtId) (op : Op) (ids : List StmtId) (payload : Payload) : Statement :=
  ⟨n, op, ids[0]?, ids[1]?, payload, none, none, none⟩

theorem follows_of_hasType (h : cx.Knowing mx Γ) (hn : nodeOf? e = some (op, payload))
    (he : e.HasType Γ τ) : ∃ τs, List.Forall₂ (Expr.HasType Γ) e.operands τs ∧
      ∀ ty ids n, List.Forall₂ (cx.Typed ty) ids τs →
        ∃ t, cx.Follows mx ty (nodeStmt n op ids payload) t ∧ cx.types.lookup? τ = some t := by
  have hh := h.represents.lawful.hierarchy
  cases he with
  | int n =>
    cases hn
    exact ⟨[], .nil, fun _ _ _ _ => ⟨.int, rfl, hh.lookup?_int⟩⟩
  | boolean b =>
    cases hn
    exact ⟨[], .nil, fun _ _ _ _ => ⟨.boolean, rfl, hh.lookup?_boolean⟩⟩
  | this hthis =>
    cases hn
    obtain ⟨t, ht⟩ := h.represents.isType_iff.1 (Or.inr (h.owner _ hthis))
    refine ⟨[], .nil, fun _ _ _ _ => ⟨t, ?_, ht⟩⟩
    change mx.this? = some t
    rw [h.this?, hthis]
    exact ht
  | @binary op l r σ τ hop hl hr =>
    cases hn
    refine ⟨[σ, σ], .cons hl (.cons hr .nil), fun ty ids n hids => ?_⟩
    match ids, hids with
    | [_, _], .cons ⟨a, ha, hσ⟩ (.cons hb .nil) =>
      obtain ⟨t, ht⟩ : ∃ t, cx.types.lookup? τ = some t := by
        cases op <;> cases hop <;>
          first | exact ⟨_, hh.lookup?_int⟩ | exact ⟨_, hh.lookup?_boolean⟩
      refine ⟨t, (binaryFollows_of_signature? hh hop).2 ⟨?_, ?_, ht⟩, ht⟩
      · exact ha.trans hσ.symm
      · exact (hb.eq_some hσ).trans hσ.symm
  | @equality op l r σ σ' hop hl hr =>
    cases hn
    refine ⟨[σ, σ'], .cons hl (.cons hr .nil), fun ty ids n hids => ?_⟩
    match ids, hids with
    | [_, _], .cons ⟨a, ha, _⟩ (.cons ⟨b, hb, _⟩ .nil) =>
      refine ⟨.boolean, (binaryFollows_of_equality hop).2 ⟨?_, ?_, rfl⟩, hh.lookup?_boolean⟩
      · exact isSome_iff_exists.2 ⟨a, ha⟩
      · exact isSome_iff_exists.2 ⟨b, hb⟩
  | not ha =>
    cases hn
    refine ⟨["boolean"], .cons ha .nil, fun ty ids n hids => ?_⟩
    match ids, hids with
    | [_], .cons ha .nil =>
      exact ⟨.boolean, ⟨ha.eq_some hh.lookup?_boolean, rfl⟩, hh.lookup?_boolean⟩
  | index ht hi =>
    cases hn
    refine ⟨["int[]", "int"], .cons ht (.cons hi .nil), fun ty ids n hids => ?_⟩
    match ids, hids with
    | [_, _], .cons ha (.cons hb .nil) =>
      exact ⟨.int, ⟨ha.eq_some hh.lookup?_intArray, hb.eq_some hh.lookup?_int, rfl⟩,
        hh.lookup?_int⟩
  | length ht =>
    cases hn
    refine ⟨["int[]"], .cons ht .nil, fun ty ids n hids => ?_⟩
    match ids, hids with
    | [_], .cons ha .nil =>
      exact ⟨.int, ⟨.intArray, ha.eq_some hh.lookup?_intArray, by simp [nodeStmt, Statement.name?]⟩,
        hh.lookup?_int⟩
  | @member target x σ type ht hf =>
    cases hn
    refine ⟨[σ], .cons ht .nil, fun ty ids n hids => ?_⟩
    match ids, hids with
    | [_], .cons ha .nil =>
      obtain ⟨id, hid, hobj, hne⟩ := h.represents.of_inherits hf
      obtain ⟨t, htype⟩ := h.represents.lookup?_of_hasField hf
      refine ⟨t, ⟨id, ha.eq_some hid, ?_⟩, htype⟩
      rw [if_neg fun hc => hne hc.1]
      exact ⟨hobj, (h.represents.fieldType?_iff hid).2 ⟨type, hf, htype⟩⟩
  | newObject hc =>
    cases hn
    obtain ⟨t, ht⟩ := h.represents.isType_iff.1 (Or.inr ⟨_, hc, rfl⟩)
    refine ⟨[], .nil, fun _ _ _ _ => ⟨t, ⟨ht, ?_⟩, ht⟩⟩
    obtain ⟨c, hmem, hclass⟩ := exists_right_of_forall₂ h.represents.classes hc
    exact ⟨c, hmem, hclass.name⟩
  | newIntArray hs =>
    cases hn
    refine ⟨["int"], .cons hs .nil, fun ty ids n hids => ?_⟩
    match ids, hids with
    | [_], .cons ha .nil =>
      exact ⟨.intArray, ⟨ha.eq_some hh.lookup?_int, rfl⟩, hh.lookup?_intArray⟩
  | var | call | assignVar | assignMember | assignIndex => cases hn

theorem hasType_of_follows (h : cx.Knowing mx Γ) (hn : nodeOf? e = some (op, payload))
    {ty : StmtId → Option TypeId} {ids : List StmtId} {n : StmtId} {t : TypeId}
    (hτs : List.Forall₂ (Expr.HasType Γ) e.operands τs) (hids : List.Forall₂ (cx.Typed ty) ids τs)
    (hf : cx.Follows mx ty (nodeStmt n op ids payload) t) :
    ∃ τ, e.HasType Γ τ ∧ cx.types.lookup? τ = some t := by
  have hl := h.represents.lawful
  have hh := hl.hierarchy
  cases e with
  | intLit n =>
    cases hn
    cases hf
    exact ⟨_, .int n, hh.lookup?_int⟩
  | boolLit b =>
    cases hn
    cases hf
    exact ⟨_, .boolean b, hh.lookup?_boolean⟩
  | this =>
    cases hn
    have hthis : mx.this? = some t := hf
    rw [h.this?] at hthis
    obtain ⟨owner, howner, ht⟩ := bind_eq_some_iff.1 hthis
    exact ⟨owner, .this howner, ht⟩
  | binary op l r =>
    cases hn
    obtain ⟨v, w, σ, σ', rfl, rfl, hleft, hright, ha, hb⟩ := forall₂_two hτs hids
    cases hop : signature? op with
    | none =>
      obtain ⟨_, _, rfl⟩ := (binaryFollows_of_equality hop).1 hf
      exact ⟨_, .equality hop hleft hright, hh.lookup?_boolean⟩
    | some sig =>
      obtain ⟨htv, htw, ht⟩ := (binaryFollows_of_signature? hh hop).1 hf
      obtain ⟨a, ha, haσ⟩ := ha
      obtain ⟨b, hb, hbσ⟩ := hb
      obtain rfl := hh.name_unique haσ (htv.symm.trans ha)
      obtain rfl := hh.name_unique hbσ (htw.symm.trans hb)
      exact ⟨_, .binary hop hleft hright, ht⟩
  | not e =>
    cases hn
    obtain ⟨v, σ, rfl, rfl, he, ha⟩ := forall₂_one hτs hids
    obtain ⟨hleft, rfl⟩ := hf
    obtain rfl := ha.eq_name hl hleft hh.lookup?_boolean
    exact ⟨_, .not he, hh.lookup?_boolean⟩
  | index target i =>
    cases hn
    obtain ⟨v, w, σ, σ', rfl, rfl, ht, hi, ha, hb⟩ := forall₂_two hτs hids
    obtain ⟨hleft, hright, rfl⟩ := hf
    obtain rfl := ha.eq_name hl hleft hh.lookup?_intArray
    obtain rfl := hb.eq_name hl hright hh.lookup?_int
    exact ⟨_, .index ht hi, hh.lookup?_int⟩
  | member target x =>
    cases hn
    obtain ⟨v, σ, rfl, rfl, ht, ha⟩ := forall₂_one hτs hids
    obtain ⟨id, hleft, hrule⟩ := hf
    split at hrule
    · next harray =>
      obtain ⟨rfl, rfl : x = "length"⟩ := harray
      obtain rfl := ha.eq_name hl hleft hh.lookup?_intArray
      exact ⟨_, .length ht, hrule ▸ hh.lookup?_int⟩
    · obtain ⟨type, hfield, htype⟩ :=
        (h.represents.fieldType?_iff (ha.lookup?_eq hleft)).1 hrule.2
      exact ⟨_, .member ht hfield, htype⟩
  | newObject name =>
    cases hn
    obtain ⟨hlookup, c, hc, rfl : c.name = name⟩ := hf
    obtain ⟨decl, hdecl, hclass⟩ := exists_left_of_forall₂ h.represents.classes hc
    rw [hclass.name] at hlookup ⊢
    exact ⟨_, .newObject hdecl, hlookup⟩
  | newIntArray size =>
    cases hn
    obtain ⟨v, σ, rfl, rfl, hs, ha⟩ := forall₂_one hτs hids
    obtain ⟨hleft, rfl⟩ := hf
    obtain rfl := ha.eq_name hl hleft hh.lookup?_int
    exact ⟨_, .newIntArray hs, hh.lookup?_intArray⟩
  | var | call | assign => cases hn

end Nodes

/-! ## Pieces of code -/

section Pieces

variable {cx : TypeContext} {mx : MethodContext} {Γ : Context} {sc sc₁ sc' : Scope} {e : Expr}
  {es : List Expr} {ty : StmtId → Option TypeId} {v : StmtId} {ids : List StmtId}

def AgreesExpr (cx : TypeContext) (mx : MethodContext) (Γ : Context)
    (ty : StmtId → Option TypeId) (e : Expr) (v : StmtId) (sc : Scope) : Prop :=
  sc.Agrees cx mx Γ (e.HasType Γ) fun ty' τ => Grows ty ty' ∧ cx.Typed ty' v τ

def AgreesArgs (cx : TypeContext) (mx : MethodContext) (Γ : Context)
    (ty : StmtId → Option TypeId) (es : List Expr) (ids : List StmtId) (sc : Scope) : Prop :=
  sc.Agrees cx mx Γ (List.Forall₂ (Expr.HasType Γ) es) fun ty' τs =>
    Grows ty ty' ∧ List.Forall₂ (cx.Typed ty') ids τs

/-- The code of an expression passes the check if and only if the expression has a type, which is
then the type of its value. -/
def TypesExpr (cx : TypeContext) (mx : MethodContext) (Γ : Context) (e : Expr) : Prop :=
  ∀ {sc v sc' ty}, sc.Fits cx mx Γ ty → lowerExpr e sc = .ok v sc' →
    AgreesExpr cx mx Γ ty e v sc'

theorem AgreesExpr.cons (he : AgreesExpr cx mx Γ ty e v sc₁) (hp : sc₁.body <+: sc'.body)
    (hes : ∀ ty₁, sc₁.Fits cx mx Γ ty₁ → AgreesArgs cx mx Γ ty₁ es ids sc') :
    AgreesArgs cx mx Γ ty (e :: es) (v :: ids) sc' := by
  refine Scope.Agrees.next (K := fun τ τs => ∃ τs', List.Forall₂ (Expr.HasType Γ) es τs' ∧
    τs = τ :: τs') he hp (fun τs => ?_) fun ty₁ τ hfits hτ => ?_
  · rw [forall₂_cons_left_iff]
    simp only [exists_and_left]
  · refine (hes ty₁ hfits).imp ?_ ?_
    · rintro τs ⟨τs', hτs', rfl⟩
      exact ⟨τs', hτs', fun ty' h => ⟨hτ.1.trans h.1, .cons (hτ.2.mono h.1) h.2⟩⟩
    · rintro τs' ty' hτs' h
      exact ⟨τ :: τs', ⟨τs', hτs', rfl⟩, hτ.1.trans h.1, .cons (hτ.2.mono h.1) h.2⟩

theorem AgreesExpr.singleton (he : AgreesExpr cx mx Γ ty e v sc) :
    AgreesArgs cx mx Γ ty [e] [v] sc := by
  refine Scope.Agrees.imp he (fun τs hτs => ?_) fun τ ty' hτ h =>
    ⟨[τ], .cons hτ .nil, h.1, .cons h.2 .nil⟩
  obtain ⟨τ, _, hτ, hnil, rfl⟩ := forall₂_cons_left_iff.1 hτs
  cases hnil
  exact ⟨τ, hτ, fun ty' h => ⟨h.1, .cons h.2 .nil⟩⟩

theorem AgreesExpr.hold {later : Bool} {held : StmtId}
    (he : AgreesExpr cx mx Γ ty e v sc₁) (h : Ssa.hold v later sc₁ = .ok held sc') :
    AgreesExpr cx mx Γ ty e held sc' := by
  rcases hold_cases h with ⟨rfl, rfl, _⟩ | ⟨x, _, _, rfl, rfl⟩
  · exact he
  · refine Scope.Agrees.extend he (prefix_append ..) fun ty₁ τ hfits hτ => ?_
    obtain ⟨hgrows, t, ht, hτ⟩ := hτ
    have hfollows : cx.Follows mx ty₁ ⟨sc₁.nextId, .assignVar, some v, some v, .name x, none, none,
        none⟩ t := ⟨ht, t, ht, TypeTable.Hierarchy.isSubtype_refl _ t⟩
    exact ⟨_, hfits.emit hfollows, hgrows.trans (hfits.grows_update t), t,
      Function.update_self .., hτ⟩

theorem typesArgs (ih : ∀ e ∈ es, TypesExpr cx mx Γ e) :
    ∀ {sc ids sc' ty}, sc.Fits cx mx Γ ty → lowerArgs es sc = .ok ids sc' →
      AgreesArgs cx mx Γ ty es ids sc' := by
  induction es with
  | nil =>
    intro sc ids sc' ty hfits h
    obtain ⟨rfl, rfl⟩ := lowerArgs_nil_cases h
    refine hfits.agrees.imp ?_ ?_
    · rintro τs ⟨⟩
      exact ⟨(), trivial, fun ty' hty' => ⟨hty' ▸ .refl ty, .nil⟩⟩
    · rintro _ ty' _ rfl
      exact ⟨[], .nil, .refl ty', .nil⟩
  | cons e es ihs =>
    intro sc ids sc' ty hfits h
    obtain ⟨v, sc₁, held, sc₂, rest, hv, hheld, hrest, rfl⟩ := lowerArgs_cons_cases h
    have he := (ih e mem_cons_self hfits hv).hold hheld
    refine he.cons (lowerArgs_evolves (fun _ _ => lowerExpr_evolves) hrest).appends.isPrefix ?_
    exact fun ty₁ hfits₁ => ihs (fun f hf => ih f (mem_cons_of_mem _ hf)) hfits₁ hrest

/-- **The statement of an expression** after its operands. -/
theorem AgreesArgs.emit {op : Op} {left? right? : Option StmtId} {payload : Payload}
    (hes : AgreesArgs cx mx Γ ty es ids sc₁)
    (hcomplete : ∀ τ, e.HasType Γ τ → ∃ τs, List.Forall₂ (Expr.HasType Γ) es τs ∧
      ∀ ty', List.Forall₂ (cx.Typed ty') ids τs → ∃ t,
        cx.Follows mx ty' ⟨sc₁.nextId, op, left?, right?, payload, none, none, none⟩ t ∧
          ∀ ty'', ty'' sc₁.nextId = some t → Grows ty' ty'' → cx.Typed ty'' v τ)
    (hsound : ∀ τs ty' t, List.Forall₂ (Expr.HasType Γ) es τs → List.Forall₂ (cx.Typed ty') ids τs →
      cx.Follows mx ty' ⟨sc₁.nextId, op, left?, right?, payload, none, none, none⟩ t →
        ∃ τ, e.HasType Γ τ ∧
          ∀ ty'', ty'' sc₁.nextId = some t → Grows ty' ty'' → cx.Typed ty'' v τ) :
    AgreesExpr cx mx Γ ty e v (sc₁.emit op left? right? payload).2 := by
  refine Scope.Agrees.emit hes (fun τ hτ => ?_) fun ty' τs t hτs hR hfollows => ?_
  · obtain ⟨τs, hτs, hrest⟩ := hcomplete τ hτ
    refine ⟨τs, hτs, fun ty' hR => ?_⟩
    obtain ⟨t, hfollows, htyped⟩ := hrest ty' hR.2
    exact ⟨t, hfollows, fun ty'' ht hgrows => ⟨hR.1.trans hgrows, htyped ty'' ht hgrows⟩⟩
  · obtain ⟨τ, hτ, htyped⟩ := hsound τs ty' t hτs hR.2 hfollows
    exact ⟨τ, hτ, fun ty'' ht hgrows => ⟨hR.1.trans hgrows, htyped ty'' ht hgrows⟩⟩

/-! ## Calls -/

theorem fits_emitArgs {values : List StmtId} : ∀ {position : Nat} {ids : List StmtId}
    {sc sc' : Scope} {ty : StmtId → Option TypeId} {τs : List String}, sc.Fits cx mx Γ ty →
    emitArgs position values sc = .ok ids sc' → List.Forall₂ (cx.Typed ty) values τs →
    ∃ ty', sc'.Fits cx mx Γ ty' ∧ Grows ty ty' ∧ List.Forall₂ (cx.Typed ty') ids τs := by
  induction values with
  | nil =>
    intro position ids sc sc' ty τs hfits h hτs
    obtain ⟨rfl, rfl⟩ := emitArgs_nil_cases h
    exact ⟨ty, hfits, .refl ty, hτs⟩
  | cons value values ih =>
    intro position ids sc sc' ty τs hfits h hτs
    obtain ⟨rest, rfl, hrest⟩ := emitArgs_cons_cases h
    obtain ⟨τ, τs, ⟨t, ht, hτ⟩, hvalues, rfl⟩ := forall₂_cons_left_iff.1 hτs
    have hfollows : cx.Follows mx ty ⟨sc.nextId, .arg, some value, none, .position position, none,
        none, none⟩ t := ht
    have hgrows := hfits.grows_update t
    obtain ⟨ty', hfits', hgrows', hids⟩ :=
      ih (hfits.emit hfollows) hrest (hvalues.imp fun _ _ h => h.mono hgrows)
    have harg : cx.Typed (Function.update ty sc.nextId (some t)) sc.nextId τ :=
      ⟨t, Function.update_self .., hτ⟩
    exact ⟨ty', hfits', hgrows.trans hgrows', .cons (harg.mono hgrows') hids⟩

theorem forall₂_isSubtype_iff {ty : StmtId → Option TypeId} {params : List VarDecl}
    {paramTypes : List TypeId} (h : cx.Represents Γ.program)
    (hids : List.Forall₂ (cx.Typed ty) ids τs)
    (hparams : List.Forall₂ (fun d t => cx.types.lookup? d.type.text = some t) params paramTypes) :
    List.Forall₂ (fun arg param => ∃ t, ty arg = some t ∧ cx.types.isSubtype t param = true) ids
        paramTypes ↔
      List.Forall₂ (fun τ (d : VarDecl) => Γ.program.Subtype τ d.type.text) τs params := by
  induction hids generalizing params paramTypes with
  | nil => cases hparams <;> simp
  | @cons v τ ids τs hv _ ih =>
    cases hparams with
    | nil => simp
    | @cons d t params paramTypes hd hparams =>
      obtain ⟨t', ht', hτ⟩ := hv
      simp only [forall₂_cons, ih hparams, ht', some.injEq, exists_eq_left']
      rw [h.isSubtype_iff hτ hd]

theorem agreesExpr_call {method : String} {args : List Expr} (h : cx.Knowing mx Γ)
    (hes : AgreesArgs cx mx Γ ty (target :: args) (t :: ids) sc₁) :
    AgreesExpr cx mx Γ ty (.call target method args) sc₁.nextId
      (sc₁.emit .call (some t) none (.call method ids)).2 := by
  refine hes.emit (fun τ hτ => ?_) fun τs ty' type hτs hids hfollows => ?_
  · cases hτ with
    | @call _ _ σ _ τs decl ht hm hargs hsub =>
      refine ⟨σ :: τs, .cons ht hargs, fun ty' hids => ?_⟩
      obtain ⟨hid, hids⟩ := forall₂_cons.1 hids
      obtain ⟨id, hσ, hobj, _⟩ := h.represents.of_inherits hm
      obtain ⟨m, hm, hmethod⟩ := (h.represents.method?_iff hσ).1 decl hm
      obtain ⟨type, hreturn, htype⟩ := hmethod.result
      have hparams := (forall₂_isSubtype_iff h.represents hids hmethod.params).2 hsub
      refine ⟨type, ⟨id, method, ids, m, hid.eq_some hσ, hobj, rfl, hm, hparams, ?_⟩,
        fun ty'' hty'' _ => ⟨type, hty'', htype⟩⟩
      rw [hreturn]
      rfl
  · obtain ⟨σ, τs, ht, hargs, rfl⟩ := forall₂_cons_left_iff.1 hτs
    obtain ⟨hid, hids⟩ := forall₂_cons.1 hids
    obtain ⟨id, _, _, m, hleft, _, ⟨⟩, hm, hparams, rfl⟩ := hfollows
    obtain ⟨decl, hdecl, hmethod⟩ := (h.represents.method?_iff (hid.lookup?_eq hleft)).2 m hm
    obtain ⟨type, hreturn, htype⟩ := hmethod.result
    have hsub := (forall₂_isSubtype_iff h.represents hids hmethod.params).1 hparams
    refine ⟨_, .call ht hdecl hargs hsub, fun ty'' hty'' _ => ⟨type, ?_, htype⟩⟩
    rw [hty'', hreturn]
    rfl

/-! ## Assignments -/

theorem hasType_var_iff (h : cx.Knowing mx Γ) {x τ : String} (hx : Γ.local? x = none) :
    (Expr.var x).HasType Γ τ ↔ (Expr.member .this x).HasType Γ τ := by
  constructor
  · intro hτ
    cases hτ with
    | var hname =>
      cases hname with
      | bound hb =>
        rw [hx] at hb
        cases hb
      | field _ hthis hf => exact .member (.this hthis) hf
  · intro hτ
    cases hτ with
    | member ht hf =>
      cases ht with
      | this hthis => exact .var (.field hx hthis hf)
    | length ht =>
      cases ht with
      | this hthis =>
        obtain ⟨decl, hdecl, hname⟩ := h.owner _ hthis
        exact absurd (by rw [hname]; decide) (h.represents.name_not_mem_builtinNames hdecl)

theorem hasType_assignVar_iff {x τ : String} (hx : Γ.local? x = none) :
    (Expr.assign (.var x) value).HasType Γ τ ↔
      (Expr.assign (.member .this x) value).HasType Γ τ := by
  constructor
  · intro hτ
    cases hτ with
    | assignVar hname hv hsub =>
      cases hname with
      | bound hb =>
        rw [hx] at hb
        cases hb
      | field _ hthis hf => exact .assignMember (.this hthis) hf hv hsub
  · intro hτ
    cases hτ with
    | assignMember ht hf hv hsub =>
      cases ht with
      | this hthis => exact .assignVar (.field hx hthis hf) hv hsub

section

variable (h : cx.Knowing mx Γ)
include h

theorem agreesExpr_assignMember {x : String}
    (hes : AgreesArgs cx mx Γ ty [target, value] [t, v] sc₁) :
    AgreesExpr cx mx Γ ty (.assign (.member target x) value) v
      (sc₁.emit .assignMember (some t) (some v) (.name x)).2 := by
  refine hes.emit (fun τ hτ => ?_) fun τs ty' type hτs hids hfollows => ?_
  · cases hτ with
    | @assignMember _ _ _ σ _ type ht hf hv hsub =>
      refine ⟨[σ, τ], .cons ht (.cons hv .nil), fun ty' hids => ?_⟩
      obtain ⟨ha, hb, _⟩ : cx.Typed ty' t σ ∧ cx.Typed ty' v τ ∧ True := by simpa using hids
      obtain ⟨id, hid, hobj, _⟩ := h.represents.of_inherits hf
      obtain ⟨id', hid'⟩ := h.represents.lookup?_of_hasField hf
      obtain ⟨value, hvalue, hτ⟩ := hb
      refine ⟨id', ⟨id, value, ha.eq_some hid, hobj, ?_, hvalue, ?_⟩, fun ty'' _ hgrows => ?_⟩
      · exact (h.represents.fieldType?_iff hid).2 ⟨type, hf, hid'⟩
      · exact (h.represents.isSubtype_iff hτ hid').2 hsub
      · exact ⟨value, hgrows v value hvalue, hτ⟩
  · obtain ⟨_, _, σ, τ, ⟨⟩, rfl, ht, hv, ha, hb⟩ := forall₂_two hτs hids
    obtain ⟨id, value, hleft, _, hfield, hright, hsub⟩ := hfollows
    obtain ⟨type', hf, htype⟩ := (h.represents.fieldType?_iff (ha.lookup?_eq hleft)).1 hfield
    refine ⟨τ, .assignMember ht hf hv ?_, fun ty'' _ hgrows => hb.mono hgrows⟩
    exact (h.represents.isSubtype_iff (hb.lookup?_eq hright) htype).1 hsub

theorem agreesExpr_assignIndex {index : Expr} {i : StmtId}
    (hes : AgreesArgs cx mx Γ ty [target, index, value] [t, i, v] sc₁) :
    AgreesExpr cx mx Γ ty (.assign (.index target index) value) v
      (sc₁.emit .assignIndex (some t) (some v) (.index i)).2 := by
  have hl := h.represents.lawful
  have hh := hl.hierarchy
  refine hes.emit (fun τ hτ => ?_) fun τs ty' type hτs hids hfollows => ?_
  · cases hτ with
    | assignIndex ht hi hv =>
      refine ⟨["int[]", "int", "int"], .cons ht (.cons hi (.cons hv .nil)), fun ty' hids => ?_⟩
      obtain ⟨ha, hb, hc⟩ : cx.Typed ty' t "int[]" ∧ cx.Typed ty' i "int" ∧ cx.Typed ty' v "int" := by
        simpa using hids
      refine ⟨.int, ⟨ha.eq_some hh.lookup?_intArray, hc.eq_some hh.lookup?_int,
        hb.eq_some hh.lookup?_int, rfl⟩, fun ty'' _ hgrows => hc.mono hgrows⟩
  · obtain ⟨σ, τs, ht, hrest, rfl⟩ := forall₂_cons_left_iff.1 hτs
    obtain ⟨ha, hids⟩ := forall₂_cons.1 hids
    obtain ⟨_, _, σi, σv, ⟨⟩, rfl, hi, hv, hb, hc⟩ := forall₂_two hrest hids
    obtain ⟨hleft, hright, hindex, rfl⟩ := hfollows
    obtain rfl := ha.eq_name hl hleft hh.lookup?_intArray
    obtain rfl := hb.eq_name hl hindex hh.lookup?_int
    obtain rfl := hc.eq_name hl hright hh.lookup?_int
    exact ⟨_, .assignIndex ht hi hv, fun ty'' _ hgrows => hc.mono hgrows⟩

theorem agreesExpr_assignBound {x : String} {old : StmtId} (hfits : sc.Fits cx mx Γ ty)
    (hx : sc.locals.find? x = some old) (he : AgreesExpr cx mx Γ ty value v sc₁) :
    AgreesExpr cx mx Γ ty (.assign (.var x) value) v
      ((sc₁.emit .assignVar (some v) (some old) (.name x)).2.rebind x sc₁.nextId) := by
  obtain ⟨d, hd, id, hold, hid⟩ := hfits.bound x old hx
  -- The new value has the type that the local was declared with.
  have hemit : (sc₁.emit .assignVar (some v) (some old) (.name x)).2.Agrees cx mx Γ
      ((Expr.assign (.var x) value).HasType Γ) fun ty' τ =>
        (Grows ty ty' ∧ cx.Typed ty' v τ) ∧ cx.Typed ty' sc₁.nextId d.type.text := by
    refine Scope.Agrees.emit he (fun τ hτ => ?_) fun ty' τ type hτ hR hfollows => ?_
    · cases hτ with
      | assignVar hname hv hsub =>
        refine ⟨τ, hv, fun ty' hR => ?_⟩
        obtain ⟨hgrows, t, ht, hτ⟩ := hR
        cases hname with
        | field hx => rw [hd] at hx; cases hx
        | bound hb =>
          obtain rfl := mem_unique hd hb
          refine ⟨id, ⟨hgrows old id hold, t, ht, (h.represents.isSubtype_iff hτ hid).2 hsub⟩, ?_⟩
          intro ty'' hty'' hgrows'
          exact ⟨⟨hgrows.trans hgrows', t, hgrows' v t ht, hτ⟩, id, hty'', hid⟩
    · obtain ⟨hgrows, t, ht, hτ'⟩ := hR
      obtain ⟨hright, t', ht', hsub⟩ := hfollows
      obtain rfl : id = type := some.inj ((hgrows old id hold).symm.trans hright)
      obtain rfl := mem_unique ht ht'
      refine ⟨τ, .assignVar (.bound hd) hτ ((h.represents.isSubtype_iff hτ' hid).1 hsub), ?_⟩
      intro ty'' hty'' hgrows'
      exact ⟨⟨hgrows.trans hgrows', t, hgrows' v t ht, hτ'⟩, id, hty'', hid⟩
  exact hemit.extend (prefix_rfl) fun ty' τ hfits' hR => ⟨ty', hfits'.rebind hd hR.2, hR.1⟩

/-! ## Expressions -/

theorem agreesExpr_node {op : Op} {payload : Payload} (hn : nodeOf? e = some (op, payload))
    (hes : AgreesArgs cx mx Γ ty e.operands ids sc₁) :
    AgreesExpr cx mx Γ ty e sc₁.nextId (sc₁.emit op ids[0]? ids[1]? payload).2 := by
  refine hes.emit (fun τ hτ => ?_) fun τs ty' type hτs hids hfollows => ?_
  · obtain ⟨τs, hτs, hrule⟩ := follows_of_hasType h hn hτ
    refine ⟨τs, hτs, fun ty' hids => ?_⟩
    obtain ⟨t, hfollows, ht⟩ := hrule ty' ids sc₁.nextId hids
    exact ⟨t, hfollows, fun ty'' hty'' _ => ⟨t, hty'', ht⟩⟩
  · obtain ⟨τ, hτ, ht⟩ := hasType_of_follows h hn hτs hids hfollows
    exact ⟨τ, hτ, fun ty'' hty'' _ => ⟨type, hty'', ht⟩⟩

theorem typesExpr_of_nodeOf? {node : Op × Payload} (hn : nodeOf? e = some node)
    (ih : ∀ f ∈ e.operands, TypesExpr cx mx Γ f) : TypesExpr cx mx Γ e := by
  intro sc v sc' ty hfits hlower
  rw [lowerExpr_of_nodeOf? hn] at hlower
  obtain ⟨ids, sc₁, hargs, hlower⟩ := Build.bind_eq_ok.1 hlower
  obtain ⟨rfl, rfl⟩ := Build.emit_eq_ok.1 hlower
  exact agreesExpr_node h hn (typesArgs ih hfits hargs)

theorem typesExpr_this : TypesExpr cx mx Γ .this :=
  typesExpr_of_nodeOf? h rfl (by simp [Expr.operands])

/-- **The code of an expression** passes the check if and only if the expression has a type. -/
theorem typesExpr (e : Expr) : TypesExpr cx mx Γ e := by
  induction e using Expr.operandInduction with
  | step e ih =>
    intro sc v sc' ty hfits hlower
    cases lowersExpr hlower with
    | @bound x _ _ hx =>
      obtain ⟨d, hd, hv⟩ := hfits.bound x v hx
      refine hfits.agrees.imp ?_ ?_
      · intro τ hτ
        cases hτ with
        | var hname =>
          cases hname with
          | bound hb =>
            obtain rfl := mem_unique hd hb
            refine ⟨(), trivial, fun ty' hty' => ?_⟩
            rw [hty']
            exact ⟨.refl ty, hv⟩
          | field hx => rw [hd] at hx; cases hx
      · rintro _ ty' _ rfl
        exact ⟨_, .var (.bound hd), .refl ty', hv⟩
    | @field x id _ _ hx hmember =>
      have hx := hfits.unbound x hx
      have htypes : TypesExpr cx mx Γ (.member .this x) := by
        refine typesExpr_of_nodeOf? h rfl fun f hf => ?_
        obtain rfl := mem_singleton.1 hf
        exact typesExpr_this h
      refine (htypes hfits hmember).imp ?_ ?_
      · exact fun τ hτ => ⟨τ, (hasType_var_iff h hx).1 hτ, fun _ => id⟩
      · exact fun τ ty' hτ hR => ⟨τ, (hasType_var_iff h hx).2 hτ, hR⟩
    | node hn hargs => exact agreesExpr_node h hn (typesArgs ih hfits hargs)
    | call hargs ha =>
      have hes := typesArgs ih hfits hargs
      refine agreesExpr_call h (Scope.Agrees.extend hes
        (emitArgs_evolves ha).appends.isPrefix fun ty' τs hfits' hR => ?_)
      obtain ⟨hgrows, hτs⟩ := hR
      obtain ⟨σ, τs, ht, hvalues, rfl⟩ := forall₂_cons_left_iff.1 hτs
      obtain ⟨ty'', hfits'', hgrows', hids⟩ := fits_emitArgs hfits' ha hvalues
      exact ⟨ty'', hfits'', hgrows.trans hgrows', .cons (ht.mono hgrows') hids⟩
    | assignBound hx hv =>
      exact agreesExpr_assignBound h hfits hx (ih _ (by simp [Expr.operands]) hfits hv)
    | @assignField x value _ _ sc₁ hx hv =>
      have hx := hfits.unbound x hx
      have hthis : AgreesExpr cx mx Γ ty .this sc.nextId (sc.emit .this none none .none).2 :=
        typesExpr_this h hfits (by rw [lowerExpr]; rfl)
      have hes := hthis.cons (lowerExpr_evolves hv).appends.isPrefix fun ty₁ hfits₁ =>
        AgreesExpr.singleton (ih _ (by simp [Expr.operands]) hfits₁ hv)
      refine (agreesExpr_assignMember h hes).imp ?_ ?_
      · exact fun τ hτ => ⟨τ, (hasType_assignVar_iff hx).1 hτ, fun _ => id⟩
      · exact fun τ ty' hτ hR => ⟨τ, (hasType_assignVar_iff hx).2 hτ, hR⟩
    | assignMember hargs => exact agreesExpr_assignMember h (typesArgs ih hfits hargs)
    | assignIndex hargs => exact agreesExpr_assignIndex h (typesArgs ih hfits hargs)

end

end Pieces

end MiniJava
