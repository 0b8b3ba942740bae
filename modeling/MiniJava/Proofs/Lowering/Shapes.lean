import MiniJava.Proofs.Allocation.Transit
import MiniJava.Proofs.Lowering.Derivations

/-!
# The code that lowering emits

Each operation needs certain operands and a certain payload, and lowering emits no statement that
lacks any of these. It emits the arguments of a call right before it and copies every parameter at the
start of a method. All other statements stand for themselves and read values that were emitted before.
This file states rules for the code that lowering leaves, statement by statement; whatever else the
code of a method is known for follows by induction over these rules.
-/

namespace MiniJava.Ssa

open Ast Build List Statement

variable {op : Op} {left? right? : Option StmtId} {payload : Payload} {names : List String}
  {method : Method}

def Body.Shaped (body : Body) : Prop := ∀ s ∈ body, s.isShaped = true

/-- All statements of a body are in shape, its jumps go to some of the labels, and its locals are
declared with some of the types. -/
def Body.ShapedInto (labels : List String) (types : TypeName → Prop) (body : Body) : Prop :=
  ∀ s ∈ body, s.isShaped = true ∧ (s.op.isJump = true → ∃ l ∈ labels, s.label? = some l) ∧
    (s.op = .null → ∃ t, types t ∧ s.payload = .type t)

namespace Body.ShapedInto

variable {labels : List String} {types types' : TypeName → Prop} {body a b : Body} {s : Statement}

theorem shaped (h : body.ShapedInto labels types) : body.Shaped := fun s hs => (h s hs).1

theorem append (ha : a.ShapedInto labels types) (hb : b.ShapedInto labels types) :
    Body.ShapedInto labels types (a ++ b) :=
  forall_mem_append.2 ⟨ha, hb⟩

theorem mono (h : body.ShapedInto labels types) (hsub : ∀ t, types t → types' t) :
    body.ShapedInto labels types' := by
  intro s hs
  obtain ⟨hshape, hjump, hnull⟩ := h s hs
  refine ⟨hshape, hjump, fun hop => ?_⟩
  obtain ⟨t, ht, hpayload⟩ := hnull hop
  exact ⟨t, hsub t ht, hpayload⟩

theorem singleton (h : (s.isShaped && !s.op.isJump && s.op != .null) = true) :
    Body.ShapedInto labels types [s] := by
  simp only [Bool.and_eq_true, Bool.not_eq_true', bne_iff_ne, ne_eq] at h
  refine forall_mem_singleton.2 ⟨h.1.1, fun hjump => ?_, fun hnull => absurd hnull h.2⟩
  rw [h.1.2] at hjump
  cases hjump

end Body.ShapedInto

/-! ## Rules -/

theorem Op.isTransit_of_isAlone (h : op.isAlone = true) : op.isTransit = false := by
  cases op <;> first | rfl | cases h

/-- The values of code: what its statements compute or tie, except what is on its way. -/
def Body.values (body : Body) : List StmtId :=
  (body.filter fun s => s.isTracked && !s.op.isTransit).map (·.id)

theorem Body.values_append (a b : Body) : Body.values (a ++ b) = a.values ++ b.values := by
  simp [values]

theorem Body.values_subset_of_prefix {a b : Body} (h : a <+: b) : a.values ⊆ b.values := by
  obtain ⟨c, rfl⟩ := h
  rw [values_append]
  exact subset_append_left _ _

theorem Body.values_subset_ids (body : Body) : body.values ⊆ body.map (·.id) :=
  map_subset _ (filter_subset_self _)

/-- Code as lowering emits it, with the arguments and the parameters that are on their way after it. -/
inductive Written (labels : List String) (types : TypeName → Prop) :
    List StmtId → List StmtId → Body → Prop
  | nil : Written labels types [] [] []
  | alone {body : Body} {s : Statement} (h : Written labels types [] [] body)
    (hs : Body.ShapedInto labels types [s]) (hop : s.op.isAlone = true)
    (hbare : s.pin? = none ∧ s.type? = none) (hreads : ∀ o ∈ s.operands, o ∈ body.values) :
    Written labels types [] [] (body ++ [s])
  | arg {args : List StmtId} {body : Body} {value : StmtId} (id : StmtId)
    (h : Written labels types args [] body) (hv : value ∈ body.values) :
    Written labels types (args ++ [id]) []
      (body ++ [{ id, op := .arg, left? := some value, payload := .position args.length }])
  | call {args : List StmtId} {body : Body} {target : StmtId} (id : StmtId) (method : String)
    (h : Written labels types args [] body) (ht : target ∈ body.values) :
    Written labels types [] []
      (body ++ [{ id, op := .call, left? := some target, payload := .call method args }])
  | parameter {params : List StmtId} {body : Body} (id : StmtId)
    (h : Written labels types [] params body) :
    Written labels types [] (params ++ [id])
      (body ++ [{ id, op := .parameter, payload := .position (body.countP (·.op = .parameter)) }])
  | copy {value : StmtId} {params : List StmtId} {body : Body} (id : StmtId) (x : String)
    (h : Written labels types [] (value :: params) body) (hnot : value ∉ params) :
    Written labels types [] params (body ++
      [{ id, op := .assignVar, left? := some value, right? := some value, payload := .name x }])

namespace Written

variable {labels : List String} {types : TypeName → Prop} {args params : List StmtId} {body : Body}

theorem shapedInto (h : Written labels types args params body) : body.ShapedInto labels types := by
  induction h with
  | nil => exact forall_mem_nil _
  | alone _ hs _ _ _ ih => exact ih.append hs
  | arg | call | parameter | copy =>
    refine .append (by assumption) ?_
    exact .singleton rfl

theorem plain (h : Written labels types args params body) :
    ∀ s ∈ body, s.op ≠ .store ∧ s.op ≠ .load ∧ s.pin? = none ∧ s.type? = none := by
  induction h with
  | nil => exact forall_mem_nil _
  | alone _ _ hop hbare _ ih =>
    refine forall_mem_append.2 ⟨ih, forall_mem_singleton.2 ⟨?_, ?_, hbare⟩⟩ <;>
      rintro hc <;> rw [hc] at hop <;> cases hop
  | arg | call | parameter | copy =>
    refine forall_mem_append.2 ⟨by assumption, ?_⟩
    simp

theorem mono {types' : TypeName → Prop} (h : Written labels types args params body)
    (hsub : ∀ t, types t → types' t) : Written labels types' args params body := by
  induction h with
  | nil => exact .nil
  | alone _ hs hop hbare hreads ih => exact ih.alone (hs.mono hsub) hop hbare hreads
  | arg id _ hv ih => exact ih.arg id hv
  | call id method _ ht ih => exact ih.call id method ht
  | parameter id _ ih => exact ih.parameter id
  | copy id x _ hnot ih => exact ih.copy id x hnot

end Written

/-! ## Scopes -/

namespace Scope

variable {labels : List String} {types : TypeName → Prop} {sc sc' : Scope}

structure Settled (labels : List String) (types : TypeName → Prop) (sc : Scope) : Prop where
  code : Written labels types [] [] sc.body
  bound : ∀ x b, sc.locals.find? x = some b → b ∈ sc.body.values

theorem Settled.mono {types' : TypeName → Prop} (h : sc.Settled labels types)
    (hsub : ∀ t, types t → types' t) : sc.Settled labels types' := ⟨h.code.mono hsub, h.bound⟩

theorem settled_beginMethod (sc : Scope) : sc.beginMethod.Settled labels types :=
  ⟨.nil, fun _ _ hx => by cases hx⟩

theorem nextId_mem_values_emit (sc : Scope) (left? right? : Option StmtId) (payload : Payload)
    (hop : (op.definesValue && !op.isTransit) = true) :
    sc.nextId ∈ (sc.emit op left? right? payload).2.body.values := by
  rw [Bool.and_eq_true, Bool.not_eq_true'] at hop
  simp [Body.values, isTracked, hop]

theorem values_subset_emit (sc : Scope) (op : Op) (left? right? : Option StmtId)
    (payload : Payload) : sc.body.values ⊆ (sc.emit op left? right? payload).2.body.values :=
  Body.values_subset_of_prefix (prefix_append ..)

theorem Appends.values_subset (h : sc.Appends labels sc') : sc.body.values ⊆ sc'.body.values :=
  Body.values_subset_of_prefix h.isPrefix

namespace Settled

section

variable (h : sc.Settled labels types)
include h

theorem congr (hb : sc'.body = sc.body) (hl : ∀ x, sc'.locals.find? x = sc.locals.find? x) :
    sc'.Settled labels types :=
  ⟨hb ▸ h.code, fun x b hx => hb ▸ h.bound x b (hl x ▸ hx)⟩

theorem append (hop : op.isAlone = true)
    (hs : Body.ShapedInto labels types [{ id := sc.nextId, op, left?, right?, payload }])
    (hreads : ∀ o ∈ left?.toList ++ right?.toList ++ payloadOperands payload, o ∈ sc.body.values) :
    (sc.emit op left? right? payload).2.Settled labels types :=
  ⟨h.code.alone hs hop ⟨rfl, rfl⟩ hreads,
    fun x b hx => sc.values_subset_emit _ _ _ _ (h.bound x b hx)⟩

theorem emit
    (hop : (isShaped { id := 0, op, left?, right?, payload } && !op.isJump && op != .null && op.isAlone) = true)
    (hreads : ∀ o ∈ left?.toList ++ right?.toList ++ payloadOperands payload, o ∈ sc.body.values) :
    (sc.emit op left? right? payload).2.Settled labels types := by
  rw [Bool.and_eq_true] at hop
  exact h.append hop.2 (.singleton hop.1) hreads

theorem emit_jump (op : Op) {l : String}
    (hop : (isShaped { id := 0, op, left?, payload := .label l } && op.isJump) = true)
    (hl : l ∈ labels) (hreads : ∀ o ∈ left?, o ∈ sc.body.values) :
    (sc.emit op left? none (.label l)).2.Settled labels types := by
  rw [Bool.and_eq_true] at hop
  refine h.append ?_ (forall_mem_singleton.2 ⟨hop.1, fun _ => ⟨l, hl, rfl⟩, ?_⟩) ?_
  · cases op <;> first | rfl | exact absurd hop.2 (by simp [Op.isJump])
  · rintro rfl
    exact absurd hop.2 (by simp [Op.isJump])
  · simpa [payloadOperands] using hreads

theorem emit_label (l : String) : (sc.emit .label none none (.label l)).2.Settled labels types :=
  h.emit rfl (by simp [payloadOperands])

theorem rebind {x : String} {id : StmtId} (hid : id ∈ sc.body.values) :
    (sc.rebind x id).Settled labels types := by
  refine ⟨h.code, fun y b hy => ?_⟩
  rw [locals_rebind] at hy
  split at hy
  · obtain rfl := Option.some.inj hy
    exact hid
  · exact h.bound y b hy

end

end Settled

end Scope

/-! ## Lowering -/

section Lowering

variable {labels : List String} {types : TypeName → Prop}

theorem emitArgs_written {values : List StmtId} : ∀ {args ids : List StmtId} {sc sc' : Scope},
    Written labels types args [] sc.body → (∀ v ∈ values, v ∈ sc.body.values) →
    emitArgs args.length values sc = .ok ids sc' →
    Written labels types (args ++ ids) [] sc'.body ∧ sc'.locals = sc.locals := by
  induction values with
  | nil =>
    intro args ids sc sc' h _ hlower
    obtain ⟨rfl, rfl⟩ := emitArgs_nil_cases hlower
    exact ⟨by rwa [append_nil], rfl⟩
  | cons value values ih =>
    intro args ids sc sc' h hvalues hlower
    obtain ⟨rest, rfl, hrest⟩ := emitArgs_cons_cases hlower
    have hnext := h.arg sc.nextId (hvalues value mem_cons_self)
    have hlen : args.length + 1 = (args ++ [sc.nextId]).length := by simp
    rw [hlen] at hrest
    rw [append_cons]
    obtain ⟨hcode, hlocals⟩ := ih hnext (fun v hv => sc.values_subset_emit _ _ _ _
      (hvalues v (mem_cons_of_mem _ hv))) hrest
    exact ⟨hcode, hlocals⟩

theorem Merges.settled {before left right : String → StmtId} {sc sc' : Scope}
    (hm : Merges before left right names sc sc') : Written labels types [] [] sc.body →
    (∀ x ∈ names, left x ∈ sc.body.values ∧ right x ∈ sc.body.values) →
    (∀ x, x ∉ names → ∀ b, sc.locals.find? x = some b → b ∈ sc.body.values) →
    sc'.Settled labels types := by
  induction hm with
  | nil sc => exact fun h _ hother => ⟨h, fun x b hx => hother x (by simp) b hx⟩
  | @cons y ys sc sc₁ sc' hstep _ ih =>
    intro h hvalues hother
    obtain ⟨hl, hr⟩ := hvalues y mem_cons_self
    have hsub := hstep.appends.values_subset
    refine ih ?_ (fun x hx => ?_) fun x hx b hb => ?_
    · rw [hstep.body]
      exact h.alone (.singleton rfl) rfl ⟨rfl, rfl⟩
        (by simp [unifyOf, Statement.operands, payloadOperands, hl, hr])
    · obtain ⟨hl, hr⟩ := hvalues x (mem_cons_of_mem _ hx)
      exact ⟨hsub hl, hsub hr⟩
    · rw [hstep.locals] at hb
      split at hb
      · obtain rfl := Option.some.inj hb
        simp [hstep.body, Body.values, unifyOf, isTracked, Op.isMerge, Op.isTransit]
      · next hxy => exact hsub (hother x (by simp [hxy, hx]) b hb)

theorem Joins.settled {before p q : String → Option StmtId} {sc sc' : Scope}
    (hj : Joins names before p q sc sc') (h : Written labels types [] [] sc.body)
    (hp : ∀ x b, p x = some b → b ∈ sc.body.values)
    (hq : ∀ x b, q x = some b → b ∈ sc.body.values) : sc'.Settled labels types := by
  obtain ⟨_, left, right, _, hm, hmem, hother⟩ := hj
  refine hm.settled h (fun x hx => ?_) fun x hx b hb => ?_
  · obtain ⟨_, hl, hr⟩ := hmem x hx
    exact ⟨hp x _ hl, hq x _ hr⟩
  · exact hp x b ((hother x hx).2.1.trans hb)

/-- **Lowering keeps a scope settled**, and what is at hand are values. -/
theorem Lowers.settled {ctx out : List StmtId} {log : List Event} {roles : List Role} {sc sc' : Scope}
    (h : Lowers labels ctx sc log roles out sc') : sc.Settled labels types →
    (∀ v ∈ ctx, v ∈ sc.body.values) →
    sc'.Settled labels types ∧ ∀ v ∈ out, v ∈ sc'.body.values := by
  induction h with
  | skip sc hout => exact fun hsc hctx => ⟨hsc, fun v hv => hctx v (hout hv)⟩
  | read hx => exact fun hsc hctx => ⟨hsc, forall_mem_cons.2 ⟨hsc.bound _ _ hx, hctx⟩⟩
  | @emit ctx out op left? right? payload r sc hr hreads hout =>
    intro hsc hctx
    obtain ⟨hadmits, hlocal, halone, hjump, _, hshaped⟩ := Role.isPlain_iff.1 hr
    refine ⟨hsc.emit ?_ fun o ho => hctx o (hreads o ho), fun v hv => ?_⟩
    · simp [hshaped, hjump, Role.ne_null_of_admits hadmits hlocal, halone]
    · rcases hout v hv with hv | ⟨rfl, hdef⟩
      · exact sc.values_subset_emit _ _ _ _ (hctx v hv)
      · exact sc.nextId_mem_values_emit _ _ _ (by simp [hdef, Op.isTransit_of_isAlone halone])
  | @call ctx values ids t sc sc₁ method ha ht hvalues =>
    intro hsc hctx
    obtain ⟨hcode, hlocals⟩ :=
      @emitArgs_written _ _ _ [] _ _ _ hsc.code (fun v hv => hctx v (hvalues hv)) ha
    have hsub := (emitArgs_evolves ha).appends.values_subset
    have hkeep := sc₁.values_subset_emit .call (some t) none (.call method ids)
    refine ⟨⟨hcode.call _ method (hsub (hctx t ht)), fun x b hx => ?_⟩,
      forall_mem_cons.2 ⟨sc₁.nextId_mem_values_emit _ _ _ rfl, fun v hv => ?_⟩⟩
    · rw [Scope.locals_emit, hlocals] at hx
      exact hkeep (hsub (hsc.bound x b hx))
    · exact hkeep (hsub (hctx v hv))
  | @assign ctx out log roles x old v sc sc₁ hx _ hv hold ih =>
    intro hsc hctx
    obtain ⟨hsc₁, hout⟩ := ih hsc (forall_mem_cons.2 ⟨hsc.bound _ _ hx, hctx⟩)
    have hemit : (sc₁.emit .assignVar (some v) (some old) (.name x)).2.Settled labels types :=
      hsc₁.emit rfl (by simp [payloadOperands, hout v hv, hout old hold])
    exact ⟨hemit.rebind (sc₁.nextId_mem_values_emit _ _ _ rfl),
      fun w hw => sc₁.values_subset_emit _ _ _ _ (hout w hw)⟩
  | trans _ _ ih ih' =>
    intro hsc hctx
    obtain ⟨hsc₁, hmid⟩ := ih hsc hctx
    exact ih' hsc₁ hmid
  | @branch ctx log log' roles roles' id cond sc sc₂ sc₃ sc' hcond hlabels ht he hj iht ihe =>
    intro hsc hctx
    have hstart : (sc.thenStart id cond).Settled labels types :=
      (hsc.emit_jump .branchUnless rfl hlabels.1 (by simpa using hctx cond hcond)).congr rfl
        fun _ => rfl
    obtain ⟨hsc₂, _⟩ := iht hstart (by simp)
    have hend : (sc₂.thenEnd id).Settled labels types :=
      (hsc₂.emit_jump .jump rfl hlabels.2 (by simp)).emit_label _
    -- The second branch starts with the bindings from before the first.
    have hpre : sc.body <+: (sc₂.thenEnd id).body := ((prefix_append ..).trans ht.isPrefix).trans
      ((prefix_append ..).trans (prefix_append ..))
    have helse : (sc₂.elseStart id).Settled labels types := ⟨hend.code, fun x b hx =>
      Body.values_subset_of_prefix hpre (hsc.bound x b ((hj.thenBack x).symm.trans hx))⟩
    obtain ⟨hsc₃, _⟩ := ihe helse (by simp)
    have hpre₂ : sc₂.body <+: (sc₃.elseEnd id).body :=
      ((prefix_append ..).trans (prefix_append ..)).trans
        (he.isPrefix.trans (prefix_append ..))
    refine ⟨hj.joins.settled (hsc₃.emit_label (doneLabel id)).code (fun x b hx => ?_) fun x b hx => ?_,
      forall_mem_nil _⟩
    · exact Body.values_subset_of_prefix hpre₂ (hsc₂.bound x b hx)
    · exact sc₃.values_subset_emit .label none none _ (hsc₃.bound x b hx)
  | @loop ctx log log' roles roles' id cond sc sc₁ sc₂ sc' hlabels hc hb hj ihc ihb =>
    intro hsc _
    have hopen : Scope.Settled labels types { sc with shadow? := some .empty } :=
      hsc.congr rfl fun _ => rfl
    obtain ⟨hsc₁, hcond⟩ := ihc (hopen.emit_label (startLabel id)) (by simp)
    have hlevel : Scope.Settled labels types { sc₁ with shadow? := some .empty } :=
      hsc₁.congr rfl fun _ => rfl
    obtain ⟨hsc₂, _⟩ := ihb (hlevel.emit_jump .branchUnless rfl hlabels.2 (by simpa using hcond))
      (by simp)
    have hfinal : (sc₂.bodyEnd id).Settled labels types :=
      (hsc₂.emit_jump .jump rfl hlabels.1 (by simp)).emit_label _
    -- What was bound at any point of the loop is still a value after it.
    have hvalues : ∀ {sc₀ : Scope}, sc₀.Settled labels types → sc₀.body <+: sc₂.body →
        ∀ x b, sc₀.locals.find? x = some b → b ∈ (sc₂.bodyEnd id).body.values :=
      fun h₀ hp x b hx => Body.values_subset_of_prefix
        (hp.trans ((prefix_append ..).trans (prefix_append ..))) (h₀.bound x b hx)
    have hpre₁ : sc₁.body <+: sc₂.body := (prefix_append ..).trans hb.isPrefix
    have hpre : sc.body <+: sc₂.body := ((prefix_append ..).trans hc.isPrefix).trans hpre₁
    have hjoin : ∀ {mid : Scope} {outer? : Option Bindings} {names : List String},
        Joins names sc₁.locals.find? sc₁.locals.find? sc₂.locals.find?
          { sc₂.bodyEnd id with shadow? := outer? } mid → mid.Settled labels types := fun hj =>
      hj.settled hfinal.code (hvalues hsc₁ hpre₁) (hvalues hsc₂ (prefix_refl _))
    refine ⟨?_, forall_mem_nil _⟩
    rcases hj with ⟨_, hj⟩ | ⟨mid, _, _, _, hj, hj'⟩
    · exact hjoin hj
    · exact hj'.settled (hjoin hj).code
        (fun x b hx => hj.appends.values_subset (hvalues hsc hpre x b hx)) (hjoin hj).bound

/-! ## The code before the body -/

theorem Scope.Appends.emitBound (sc : Scope) (x : String) (value? : Option StmtId)
    (payload : Payload) (h : op ≠ .label) : sc.Appends [] (sc.emitBound x op value? payload) :=
  (Appends.emit sc value? value? payload h).trans (.of_eq rfl rfl)

theorem Opens.written {sc₀ sc : Scope} {ps ls : List VarDecl} {k : Nat} (h : Opens sc₀ ps k ls sc)
    (htypes : ∀ d ∈ ls, types d.type) :
    Written labels types [] (List.range' (sc₀.nextId + k) (ps.length - k)) sc.body ∧
      sc.body.countP (·.op = .parameter) = ps.length ∧
      (∀ x b, sc.locals.find? x = some b → b ∈ sc.body.values ∨ x ∈ (ps.drop k).map (·.name)) ∧
      sc₀.beginMethod.Appends [] sc := by
  induction h with
  | start => exact ⟨.nil, rfl, fun x b hx => by simp [Scope.beginMethod] at hx, .refl _⟩
  | @parameter ps sc d h _ ih =>
    obtain ⟨hcode, hcount, hbound, happ⟩ := ih htypes
    have hemit := Scope.Appends.emitBound sc d.name none (.position ps.length)
      (show Op.parameter ≠ .label by simp)
    refine ⟨?_, by simp [Scope.emitBound, hcount], fun x b hx => ?_, happ.trans hemit⟩
    · rw [Nat.sub_zero, Nat.add_zero] at hcode ⊢
      rw [length_append, length_singleton, range'_concat, Nat.one_mul]
      have hnext := hcode.parameter sc.nextId
      have hid : sc.nextId = sc₀.nextId + ps.length := h.nextId.trans (congrArg _ h.length)
      rw [hcount, hid] at hnext
      rwa [Scope.emitBound, Scope.body_emit, hid]
    · rw [Scope.emitBound, Bindings.find?_insert] at hx
      split at hx
      · next heq => exact Or.inr (by simp [heq])
      · refine (hbound x b hx).imp (fun hb => hemit.values_subset hb) fun hmem => ?_
        rw [drop_zero, map_append] at *
        exact mem_append_left _ hmem
  | @copy ps k sc d h hd ih =>
    obtain ⟨hcode, hcount, hbound, happ⟩ := ih htypes
    have hemit := Scope.Appends.emitBound sc d.name (some (sc₀.nextId + k)) (.name d.name)
      (show Op.assignVar ≠ .label by simp)
    obtain ⟨hk, hget⟩ := List.getElem?_eq_some_iff.1 hd
    refine ⟨?_, by simp [Scope.emitBound, hcount], fun x b hx => ?_, happ.trans hemit⟩
    · rw [show ps.length - k = ps.length - (k + 1) + 1 by omega, range'_succ] at hcode
      exact hcode.copy sc.nextId d.name (by simp)
    · rw [Scope.emitBound, Bindings.find?_insert] at hx
      split at hx
      · obtain rfl := Option.some.inj hx
        exact Or.inl (sc.nextId_mem_values_emit _ _ _ rfl)
      · next hne =>
        refine (hbound x b hx).imp (fun hb => hemit.values_subset hb) fun hmem => ?_
        rw [drop_eq_getElem_cons hk, hget, map_cons, mem_cons] at hmem
        exact hmem.resolve_left hne
  | @declare ps ls sc d h _ ih =>
    obtain ⟨hls, hd⟩ := List.forall_mem_append.1 htypes
    obtain ⟨hcode, hcount, hbound, happ⟩ := ih hls
    have hemit := Scope.Appends.emitBound sc d.name none (.type d.type) (show Op.null ≠ .label by simp)
    refine ⟨?_, by simp [Scope.emitBound, hcount], fun x b hx => ?_, happ.trans hemit⟩
    · rw [Nat.sub_self] at hcode ⊢
      exact hcode.alone (List.forall_mem_singleton.2
        ⟨rfl, by simp [Op.isJump], fun _ => ⟨_, hd d (by simp), rfl⟩⟩)
        rfl ⟨rfl, rfl⟩ (by simp [Statement.operands, payloadOperands])
    · rw [Scope.emitBound, Bindings.find?_insert] at hx
      split at hx
      · obtain rfl := Option.some.inj hx
        exact Or.inl (sc.nextId_mem_values_emit _ _ _ rfl)
      · exact (hbound x b hx).imp_left fun hb => hemit.values_subset hb

end Lowering

/-! ## Methods -/

/-- **The scope at the end of a method settles.** Its jumps go to the labels of the method, and its
locals have the types that it declares. -/
theorem lowerMethod_settled {owner : String} {m : MethodDecl} {sc sc' : Scope}
    (h : lowerMethod owner m sc = .ok method sc') :
    ∃ sc₁ : Scope, sc₁.Settled (stmtsLabels m.body) (fun t => ∃ d ∈ m.locals, d.type = t) ∧
      sc.beginMethod.Appends (stmtsLabels m.body) sc₁ ∧ method.body = sc₁.body ∧
        sc'.nextId = sc₁.nextId := by
  obtain ⟨sc₁, sc₂, result, sc₃, _, hopens, h₂, h₃, hbody, hn⟩ := lowerMethod_cases h
  obtain ⟨hcode, _, hbound, happ₁⟩ : Written (stmtsLabels m.body)
      (fun t => ∃ d ∈ m.locals, d.type = t) [] _ sc₁.body ∧ _ :=
    hopens.written fun d hd => ⟨d, hd, rfl⟩
  rw [Nat.sub_self] at hcode
  have hsc₁ : sc₁.Settled (stmtsLabels m.body) (fun t => ∃ d ∈ m.locals, d.type = t) :=
    ⟨hcode, fun x b hx => (hbound x b hx).resolve_right (by simp)⟩
  obtain ⟨hlast, _⟩ := (lowerBody_lowers h₂ h₃).settled hsc₁ (forall_mem_nil _)
  have happ := ((happ₁.trans (lowerStmts_evolves m.body h₂).appends).trans
    (lowerExpr_evolves h₃).appends).trans
      (.emit sc₃ (some result) none .none (show Op.ret ≠ .label by simp))
  rw [nil_append, append_nil, append_nil] at happ
  exact ⟨_, hlast, happ, hbody, hn⟩

/-- **The scope at the end of an entry point settles.** It declares no locals. -/
theorem lowerMain_settled {main : MainClass} {sc sc' : Scope}
    (h : lowerMain main sc = .ok method sc') :
    ∃ sc₁ : Scope, sc₁.Settled main.body.labels (fun _ => False) ∧
      sc.beginMethod.Appends main.body.labels sc₁ ∧ method.body = sc₁.body ∧
        sc'.nextId = sc₁.nextId := by
  obtain ⟨sc₁, h₁, hbody, hn⟩ := lowerMain_cases h
  obtain ⟨hsc₁, _⟩ := (lowerStmt_lowers main.body (List.Subset.refl _) h₁).settled
    sc.settled_beginMethod (forall_mem_nil _)
  exact ⟨sc₁, hsc₁, (lowerStmt_evolves main.body h₁).appends, hbody, hn⟩

end MiniJava.Ssa
