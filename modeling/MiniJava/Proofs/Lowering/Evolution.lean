import MiniJava.Proofs.Lowering.Overwriting

/-!
# How a scope evolves

Lowering appends statements under consecutive numbers, keeps the set of locals, and records in the
open shadow level the binding that each local had before the level first changed it. These facts
concern the scope alone, not the meaning of the code.
-/

namespace MiniJava.Ssa

open Ast List

variable {x : String} {b id : StmtId} {op : Op} {payload : Payload} {e : Expr} {es fs : List Expr}

/-! ## Labels -/

def Body.labelNames (body : Body) : List String := body.labels.map (·.1)

theorem Body.labelNames_eq (body : Body) :
    body.labelNames = body.filterMap fun s => if s.op = .label then s.label? else none := by
  rw [labelNames, labels, map_filterMap]
  have hzip : ∀ (body : Body) (n : Nat),
      (body.zipIdx n).filterMap (fun e => (if e.1.op = .label then e.1.label?.map (·, e.2)
        else none).map (·.1)) =
        body.filterMap fun s => if s.op = .label then s.label? else none := by
    intro body
    induction body with
    | nil => simp
    | cons s ss ih =>
      intro n
      rw [zipIdx_cons, filterMap_cons, filterMap_cons, ih (n + 1)]
      by_cases hs : s.op = .label
      · cases s.label? <;> simp [hs]
      · simp [hs]
  exact hzip body 0

@[simp] theorem Body.labelNames_append (a b : Body) :
    Body.labelNames (a ++ b) = Body.labelNames a ++ Body.labelNames b := by
  simp [Body.labelNames_eq]

theorem Body.labelNames_singleton {s : Statement} (h : s.op ≠ .label) :
    Body.labelNames [s] = [] := by
  simp [Body.labelNames_eq, h]

/-! ## What is touched -/

/-- What the open level, if there is one, has for a local. -/
def entry? (shadow? : Option Bindings) (x : String) : Option (Option StmtId) :=
  shadow?.map (·.find? x)

/-- Of the locals, those of a set are touched. The set of locals stays, a local outside the set keeps
its binding, and the open level gains the binding from before for each local of the set that it has no
entry for, and no other entry. No level is opened and none is closed. -/
structure Touched (A : String → Bool) (shadow? : Option Bindings) (before : String → Option StmtId)
    (shadow?' : Option Bindings) (after : String → Option StmtId) : Prop where
  domain : ∀ x, (after x).isSome = (before x).isSome
  kept : ∀ x, A x = false → after x = before x
  level : ∀ x, entry? shadow?' x =
    ( entry? shadow? x).map (·.or (if A x then before x else none))

namespace Touched

variable {A B : String → Bool} {shadow? shadow?₁ shadow?₂ : Option Bindings}
  {before mid after : String → Option StmtId}

theorem refl (shadow? : Option Bindings) (before : String → Option StmtId) :
    Touched (fun _ => false) shadow? before shadow? before :=
  ⟨fun _ => rfl, fun _ _ => rfl, fun x => by simp⟩

theorem eq_none (h : Touched A shadow? before shadow?₁ after) (hx : before x = none) :
    after x = none := by
  simpa [hx] using h.domain x

theorem congr (h : Touched A shadow? before shadow?₁ after)
    (hAB : ∀ x, (before x).isSome = true → A x = B x) : Touched B shadow? before shadow?₁ after := by
  refine ⟨h.domain, fun x hx => ?_, fun x => ?_⟩
  · cases hb : before x with
    | none => exact h.eq_none hb
    | some b => rw [← hb, h.kept x ((hAB x (by simp [hb])).trans hx)]
  · rw [h.level x]
    cases hb : before x with
    | none => simp
    | some b => rw [hAB x (by simp [hb])]

theorem trans (h₁ : Touched A shadow? before shadow?₁ mid)
    (h₂ : Touched B shadow?₁ mid shadow?₂ after) :
    Touched (fun x => A x || B x) shadow? before shadow?₂ after := by
  refine ⟨fun x => (h₂.domain x).trans (h₁.domain x), fun x hx => ?_, fun x => ?_⟩
  · obtain ⟨hA, hB⟩ := Bool.or_eq_false_iff.1 hx
    rw [h₂.kept x hB, h₁.kept x hA]
  · rw [h₂.level x, h₁.level x, Option.map_map]
    congr 1
    funext old
    -- What the first part touches is captured by it, so that the second part adds nothing.
    cases hA : A x with
    | false => simp [h₁.kept x hA]
    | true =>
      cases hb : before x with
      | none => simp [h₁.eq_none hb]
      | some b => cases old <;> simp

section

variable (h : Touched A (some .empty) before shadow? after)
include h

theorem exists_level : ∃ captured, shadow? = some captured ∧
    ∀ x, captured.find? x = if A x then before x else none := by
  cases shadow? with
  | none => exact absurd (h.level "") (by simp [ entry?])
  | some captured => exact ⟨captured, rfl, fun x => by simpa [ entry?] using h.level x⟩

variable {captured : Bindings}

theorem eq_of_captured (hc : shadow? = some captured) (hx : captured.find? x = some b) :
    before x = some b := by
  obtain ⟨_, rfl, hfind⟩ := h.exists_level
  obtain rfl := Option.some.inj hc
  rw [hfind] at hx
  split at hx
  · exact hx
  · cases hx

theorem eq_of_not_captured (hc : shadow? = some captured) (hx : captured.find? x = none) :
    after x = before x := by
  obtain ⟨_, rfl, hfind⟩ := h.exists_level
  obtain rfl := Option.some.inj hc
  rw [hfind] at hx
  cases hA : A x with
  | false => exact h.kept x hA
  | true =>
    have hx : before x = none := by simpa [hA] using hx
    rw [hx, h.eq_none hx]

/-- **What a level captured gives back the bindings at its start.** -/
theorem or_eq (hc : shadow? = some captured) (x : String) :
    (captured.find? x).or (after x) = before x := by
  cases hx : captured.find? x with
  | none => exact h.eq_of_not_captured hc hx
  | some b => exact (h.eq_of_captured hc hx).symm

end

end Touched

/-- A local's binding is captured in the open level, unless the level has one for it already. -/
def Captures (x : String) (b : StmtId) (shadow? shadow?' : Option Bindings) : Prop :=
  ∀ y, entry? shadow?' y = ( entry? shadow? y).map (·.or (if y = x then some b else none))

theorem Scope.capture_captures {sc : Scope} (hx : sc.locals.find? x = some b) :
    Captures x b sc.shadow? (sc.capture x) := by
  intro y
  unfold capture
  rw [hx]
  cases sc.shadow? with
  | none => rfl
  | some sh =>
    by_cases hy : y = x
    · subst hy
      cases hs : sh.find? y <;> simp [ entry?, Bindings.contains, hs]
    · cases hs : sh.find? x <;> simp [ entry?, Bindings.contains, hs, hy]

/-! ## Appended code -/

namespace Scope

variable {labels labels' : List String} {sc sc₁ sc' : Scope}

/-- Statements with consecutive numbers were appended. They define the given labels. -/
def Appends (labels : List String) (sc sc' : Scope) : Prop :=
  ∃ code : Body, sc'.body = sc.body ++ code ∧
    code.map (·.id) = List.range' sc.nextId code.length ∧
      sc'.nextId = sc.nextId + code.length ∧ code.labelNames = labels

namespace Appends

theorem of_eq (hb : sc'.body = sc.body) (hn : sc'.nextId = sc.nextId) : Appends [] sc sc' :=
  ⟨[], by simp [hb], rfl, hn, rfl⟩

theorem refl (sc : Scope) : Appends [] sc sc := of_eq rfl rfl

theorem trans (h : Appends labels sc sc₁) (h' : Appends labels' sc₁ sc') :
    Appends (labels ++ labels') sc sc' := by
  obtain ⟨code, hb, hi, hn, hl⟩ := h
  obtain ⟨code', hb', hi', hn', hl'⟩ := h'
  refine ⟨code ++ code', ?_, ?_, ?_, ?_⟩
  · rw [hb', hb, append_assoc]
  · rw [map_append, hi, hi', hn, length_append, range'_append_1]
  · rw [hn', hn, length_append, Nat.add_assoc]
  · rw [Body.labelNames_append, hl, hl']

theorem emit (sc : Scope) (left? right? : Option StmtId) (payload : Payload) (h : op ≠ .label) :
    Appends [] sc (sc.emit op left? right? payload).2 :=
  ⟨[_], rfl, rfl, rfl, Body.labelNames_singleton h⟩

theorem emit_label (sc : Scope) (l : String) :
    Appends [l] sc (sc.emit .label none none (.label l)).2 :=
  ⟨[_], rfl, rfl, rfl, by simp [Body.labelNames_eq, Statement.label?]⟩

theorem isPrefix (h : Appends labels sc sc') : sc.body <+: sc'.body := by
  obtain ⟨code, hb, _⟩ := h
  exact ⟨code, hb.symm⟩

theorem nextId_le (h : Appends labels sc sc') : sc.nextId ≤ sc'.nextId := by
  obtain ⟨code, _, _, hn, _⟩ := h
  rw [hn]
  exact Nat.le_add_right ..

end Appends

theorem getElem?_of_emit {code : Body} {left? right? : Option StmtId}
    (hp : (sc.emit op left? right? payload).2.body <+: code) :
    code[sc.body.length]? = some { id := sc.nextId, op, left?, right?, payload } := by
  obtain ⟨rest, hrest⟩ := hp
  rw [← hrest, Scope.body_emit, append_assoc]
  simp

/-! ## Evolution -/

/-- How a scope changes when expressions are lowered in it, be it as parts of a statement: statements
are appended, and the locals that the expressions assign are touched. -/
structure Evolves (labels : List String) (es : List Expr) (sc sc' : Scope) : Prop where
  appends : sc.Appends labels sc'
  touched : Touched (fun x => es.any (·.assigns x)) sc.shadow? sc.locals.find? sc'.shadow?
    sc'.locals.find?

namespace Evolves

theorem domain (h : Evolves labels es sc sc') (x : String) :
    (sc'.locals.find? x).isSome = (sc.locals.find? x).isSome := h.touched.domain x

theorem refl (sc : Scope) : Evolves [] [] sc sc := ⟨.refl sc, .refl ..⟩

theorem trans (h : Evolves labels es sc sc₁) (h' : Evolves labels' fs sc₁ sc') :
    Evolves (labels ++ labels') (es ++ fs) sc sc' :=
  ⟨h.appends.trans h'.appends, (h.touched.trans h'.touched).congr fun _ _ => any_append.symm⟩

theorem congr (h : Evolves labels es sc sc') (hes : ∀ x, (sc.locals.find? x).isSome = true →
    es.any (·.assigns x) = fs.any (·.assigns x)) : Evolves labels fs sc sc' :=
  ⟨h.appends, h.touched.congr hes⟩

theorem emit (h : Evolves labels es sc sc') (left? right? : Option StmtId) (payload : Payload)
    (hop : op ≠ .label) : Evolves labels es sc (sc'.emit op left? right? payload).2 :=
  ⟨by simpa using h.appends.trans (.emit sc' left? right? payload hop), h.touched⟩

/-- A local is rebound when an assignment to it is lowered. -/
theorem rebind (h : Evolves labels [e] sc sc') (hx : sc.locals.find? x = some b) (id : StmtId) :
    Evolves labels [.assign (.var x) e] sc (sc'.rebind x id) := by
  obtain ⟨b', hb'⟩ : ∃ b', sc'.locals.find? x = some b' := by
    rw [← Option.isSome_iff_exists, h.domain, hx]
    rfl
  have hstep : Touched (x == ·) sc'.shadow? sc'.locals.find? (sc'.rebind x id).shadow?
      (sc'.rebind x id).locals.find? := by
    refine ⟨fun y => ?_, fun y hy => ?_, fun y => ?_⟩
    · rw [locals_rebind]
      by_cases hy : y = x
      · simp [hy, hb']
      · simp [hy]
    · have hyx : x ≠ y := by simpa using hy
      rw [locals_rebind, if_neg hyx.symm]
    · have hlevel := capture_captures hb' y
      refine hlevel.trans ?_
      by_cases hy : y = x
      · simp [hy, hb']
      · simp [hy, Ne.symm hy]
  refine ⟨h.appends, (h.touched.trans hstep).congr fun y _ => ?_⟩
  simp [Expr.assigns_assign_var, Bool.or_comm]

end Evolves

end Scope

/-! ## Expressions -/

theorem hold_evolves {value : StmtId} {later : Bool} {sc sc' : Scope}
    (h : hold value later sc = .ok id sc') : sc.Evolves [] [] sc' := by
  rcases hold_cases h with ⟨_, rfl, _⟩ | ⟨x, _, _, _, rfl⟩
  · exact .refl _
  · exact (Scope.Evolves.refl sc).emit _ _ _ (by simp)

theorem emitArgs_evolves {values : List StmtId} : ∀ {position : Nat} {ids : List StmtId}
    {sc sc' : Scope}, emitArgs position values sc = .ok ids sc' → sc.Evolves [] [] sc' := by
  induction values with
  | nil =>
    intro position ids sc sc' h
    obtain ⟨_, rfl⟩ := emitArgs_nil_cases h
    exact .refl _
  | cons value values ih =>
    intro position ids sc sc' h
    obtain ⟨rest, _, hrest⟩ := emitArgs_cons_cases h
    exact ((Scope.Evolves.refl sc).emit _ _ _ (by simp)).trans (ih hrest)

theorem lowerArgs_evolves {es : List Expr}
    (ih : ∀ e ∈ es, ∀ {sc id sc'}, lowerExpr e sc = .ok id sc' → sc.Evolves [] [e] sc') :
    ∀ {sc ids sc'}, lowerArgs es sc = .ok ids sc' → sc.Evolves [] es sc' := by
  induction es with
  | nil =>
    intro sc ids sc' h
    obtain ⟨_, rfl⟩ := lowerArgs_nil_cases h
    exact .refl _
  | cons e es ihes =>
    intro sc ids sc' h
    obtain ⟨v, sc₁, held, sc₂, rest, hv, hh, hrest, _⟩ := lowerArgs_cons_cases h
    have hv : sc.Evolves [] [e] sc₁ := ih e mem_cons_self hv
    have hrest : sc₂.Evolves [] es sc' := ihes (fun f hf => ih f (mem_cons_of_mem _ hf)) hrest
    exact (hv.trans (hold_evolves hh)).trans hrest

theorem nodeOf?_ne_label (h : nodeOf? e = some (op, payload)) : op ≠ .label := by
  cases e <;> cases h <;> simp

/-- **Lowering an expression is an evolution of the scope.** Its code has no labels. -/
theorem lowerExpr_evolves : ∀ {sc id sc'}, lowerExpr e sc = .ok id sc' →
    sc.Evolves [] [e] sc' := by
  induction e using Expr.operandInduction with
  | step e ih =>
    intro sc id sc' h
    -- Whatever is not an assignment to a variable assigns what its operands assign.
    have hoperands : (∀ x, e.assigns x = e.operands.any (·.assigns x)) →
        ∀ {labels sc'}, sc.Evolves labels e.operands sc' → sc.Evolves labels [e] sc' :=
      fun he _ _ h => h.congr fun x _ => by simp [he]
    cases lowersExpr h with
    | bound => exact hoperands (fun _ => rfl) (.refl _)
    | field hx h =>
      simp only [lowerExpr, Build.bind_eq_ok, Build.emit_eq_ok] at h
      obtain ⟨_, _, ⟨rfl, rfl⟩, rfl, rfl⟩ := h
      have hthis := (Scope.Evolves.refl sc).emit none none .none (by simp : Op.this ≠ .label)
      exact hoperands (fun _ => rfl) (hthis.emit _ _ _ (by simp))
    | node hn hargs =>
      refine hoperands (fun x => ?_) ((lowerArgs_evolves ih hargs).emit _ _ _ (nodeOf?_ne_label hn))
      cases e <;> cases hn <;>
        simp [Expr.assigns, Expr.subterms, Expr.operands, Expr.isAssignmentTo]
    | call hargs ha =>
      have hcode := (lowerArgs_evolves ih hargs).trans (emitArgs_evolves ha)
      simp only [append_nil] at hcode
      refine hoperands (fun x => ?_) (hcode.emit _ _ _ (by simp))
      simp [Expr.assigns, Expr.subterms, Expr.operands, Expr.isAssignmentTo]
    | assignBound hx hv =>
      exact ((ih _ (by simp [Expr.operands]) hv).emit _ _ _ (by simp)).rebind hx _
    | @assignField x _ _ _ _ hx hv =>
      have hthis := (Scope.Evolves.refl sc).emit none none .none (by simp : Op.this ≠ .label)
      refine ((hthis.trans (ih _ (by simp [Expr.operands]) hv)).emit _ _ _ (by simp)).congr
        fun y hy => ?_
      have hxy : x ≠ y := fun hc => by simp [← hc, hx] at hy
      simp [Expr.assigns_assign_var, hxy]
    | assignMember hargs =>
      refine hoperands (fun x => ?_) ((lowerArgs_evolves ih hargs).emit _ _ _ (by simp))
      simp [Expr.assigns, Expr.subterms, Expr.operands, Expr.isAssignmentTo]
    | assignIndex hargs =>
      refine hoperands (fun x => ?_) ((lowerArgs_evolves ih hargs).emit _ _ _ (by simp))
      simp [Expr.assigns, Expr.subterms, Expr.operands, Expr.isAssignmentTo]

end MiniJava.Ssa
