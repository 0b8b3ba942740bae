import MiniJava.Proofs.Lowering.Evolution

/-!
# Joins

At the end of an `if` and of a loop, each local that a path changed is merged: a `unify` ties the two
statements that hold it, and the local is bound to the `unify`. This file says which statements are
tied, and that lowering a statement is an evolution of its scope.
-/

namespace MiniJava.Ssa

open Ast List Option Build

variable {x : String} {thenBranch elseBranch body : Build Unit} {u : Unit} {es fs : List Expr}
  {A : String → Bool}
  {thenValues elseValues : Bindings} {old : String → StmtId} {code : Body} {cond : StmtId}
  {labels' : List String}

/-! ## Merges -/

def unifyOf (id left right : StmtId) : Statement :=
  { id, op := .unify, left? := some left, right? := some right }

/-- A local is merged. The enclosing level sees it change from the binding `before`. -/
structure MergeStep (x : String) (before left right : StmtId) (sc sc' : Scope) : Prop where
  body : sc'.body = sc.body ++ [unifyOf sc.nextId left right]
  nextId : sc'.nextId = sc.nextId + 1
  locals : ∀ y, sc'.locals.find? y = if y = x then some sc.nextId else sc.locals.find? y
  captures : Captures x before sc.shadow? sc'.shadow?

inductive Merges (before left right : String → StmtId) : List String → Scope → Scope → Prop
  | nil (sc : Scope) : Merges before left right [] sc sc
  | cons {x : String} {xs : List String} {sc sc₁ sc' : Scope}
    (h : MergeStep x (before x) (left x) (right x) sc sc₁)
    (hs : Merges before left right xs sc₁ sc') : Merges before left right (x :: xs) sc sc'

theorem MergeStep.appends {b l r : StmtId} {sc sc' : Scope} (h : MergeStep x b l r sc sc') :
    sc.Appends [] sc' :=
  ⟨[unifyOf sc.nextId l r], h.body, rfl, h.nextId, Body.labelNames_singleton (by simp [unifyOf])⟩

namespace Merges

variable {before left right : String → StmtId} {names : List String} {sc sc' : Scope}

section

variable (h : Merges before left right names sc sc')
include h

theorem appends : sc.Appends [] sc' := by
  induction h with
  | nil sc => exact .refl sc
  | cons h _ ih => exact h.appends.trans ih

theorem exists_code : ∃ code, sc'.body = sc.body ++ code ∧ ∀ s ∈ code, s.op = .unify := by
  induction h with
  | nil sc => exact ⟨[], by simp, by simp⟩
  | @cons x xs sc sc₁ sc' h _ ih =>
    obtain ⟨code, hb, hu⟩ := ih
    refine ⟨unifyOf sc.nextId (left x) (right x) :: code, ?_, ?_⟩
    · rw [hb, h.body, append_assoc]
      rfl
    · intro s hs
      rcases mem_cons.1 hs with rfl | hs
      · rfl
      · exact hu s hs

theorem locals_of_not_mem (hx : x ∉ names) : sc'.locals.find? x = sc.locals.find? x := by
  induction h with
  | nil => rfl
  | cons h _ ih =>
    rw [ih fun hc => hx (mem_cons_of_mem _ hc), h.locals, if_neg]
    rintro rfl
    exact hx mem_cons_self

theorem locals_of_mem (hd : names.Nodup) (hx : x ∈ names) :
    ∃ m, sc'.locals.find? x = some m ∧ unifyOf m (left x) (right x) ∈ sc'.body := by
  induction h with
  | nil => cases hx
  | @cons y ys sc sc₁ sc' h hs ih =>
    obtain ⟨hy, hd⟩ := nodup_cons.1 hd
    rcases mem_cons.1 hx with rfl | hx
    · refine ⟨sc.nextId, ?_, ?_⟩
      · rw [hs.locals_of_not_mem hy, h.locals, if_pos rfl]
      · refine hs.appends.isPrefix.subset ?_
        rw [h.body]
        simp
    · exact ih hd hx

theorem entry?_eq (x : String) : entry? sc'.shadow? x =
    ( entry? sc.shadow? x).map (·.or (if x ∈ names then some (before x) else none)) := by
  induction h with
  | nil => simp
  | @cons y ys _ _ _ h _ ih =>
    rw [ih, h.captures, Option.map_map]
    congr 1
    funext o
    by_cases hxy : x = y
    · subst hxy
      cases o <;> simp
    · simp [hxy]

end

end Merges

/-! ## Joins -/

/-- The bindings `a` and `b` of two paths are joined, for the locals of a list by ties and for all others
as they are. The enclosing level sees the locals change from the bindings `before`. -/
def Joins (names : List String) (before a b : String → Option StmtId) (sc sc' : Scope) : Prop :=
  ∃ old left right : String → StmtId, names.Nodup ∧
    Merges old left right names sc sc' ∧
    (∀ x ∈ names, before x = some (old x) ∧ a x = some (left x) ∧ b x = some (right x)) ∧
    ∀ x, x ∉ names → before x = sc.locals.find? x ∧ a x = sc.locals.find? x ∧
      b x = sc.locals.find? x

namespace Joins

variable {names : List String} {before a b : String → Option StmtId} {sc sc' : Scope}

section

variable (h : Joins names before a b sc sc')
include h

theorem appends : sc.Appends [] sc' := by
  obtain ⟨_, _, _, _, hm, _⟩ := h
  exact hm.appends

theorem exists_code : ∃ code, sc'.body = sc.body ++ code ∧ ∀ s ∈ code, s.op = .unify := by
  obtain ⟨_, _, _, _, hm, _⟩ := h
  exact hm.exists_code

/-- **At a join a local is either the same on both paths or tied to both.** -/
theorem cases (x : String) :
    (sc'.locals.find? x = before x ∧ sc'.locals.find? x = a x ∧ sc'.locals.find? x = b x) ∨
      ∃ m l r, (before x).isSome = true ∧ a x = some l ∧ b x = some r ∧
        sc'.locals.find? x = some m ∧ unifyOf m l r ∈ sc'.body := by
  obtain ⟨old, left, right, hd, hm, hmem, hother⟩ := h
  by_cases hx : x ∈ names
  · obtain ⟨hb, hl, hr⟩ := hmem x hx
    obtain ⟨m, hm, hu⟩ := hm.locals_of_mem hd hx
    exact Or.inr ⟨m, left x, right x, by simp [hb], hl, hr, hm, hu⟩
  · obtain ⟨hb, hl, hr⟩ := hother x hx
    rw [hm.locals_of_not_mem hx]
    exact Or.inl ⟨hb.symm, hl.symm, hr.symm⟩

theorem domain (x : String) : (sc'.locals.find? x).isSome = (before x).isSome := by
  rcases h.cases x with ⟨hb, _⟩ | ⟨_, _, _, hb, _, _, hm, _⟩
  · rw [hb]
  · rw [hb, hm]
    rfl

theorem touched : Touched names.contains sc.shadow? before sc'.shadow? sc'.locals.find? := by
  have hdom := h.domain
  obtain ⟨old, left, right, _, hm, hmem, hother⟩ := h
  refine ⟨hdom, fun x hx => ?_, fun x => ?_⟩
  · have hx : x ∉ names := by simpa using hx
    rw [hm.locals_of_not_mem hx, (hother x hx).1]
  · rw [hm.entry?_eq x]
    by_cases hx : x ∈ names
    · simp [hx, (hmem x hx).1]
    · simp [hx]

end

end Joins

/-! ## Branches -/

section Branch

variable {id : NodeId} {condition : Expr} {labels : List String}

def Scope.thenStart (sc : Scope) (id : NodeId) (cond : StmtId) : Scope :=
  { (sc.emit .branchUnless (some cond) none (.label (elseLabel id))).2 with shadow? := some .empty }

/-- The scope after the first branch, its jump and the label of the second. -/
def Scope.thenEnd (sc : Scope) (id : NodeId) : Scope :=
  ((sc.emit .jump none none (.label (doneLabel id))).2.emit .label none none
    (.label (elseLabel id))).2

def Scope.elseEnd (sc : Scope) (id : NodeId) : Scope :=
  (sc.emit .label none none (.label (doneLabel id))).2

def Scope.leave (sc : Scope) (outer? : Option Bindings) : Bindings × Scope :=
  Scope.restore { sc with shadow? := outer? } (sc.shadow?.getD .empty)

def Scope.elseStart (sc : Scope) (id : NodeId) : Scope :=
  { ((sc.thenEnd id).leave none).2 with shadow? := some .empty }

theorem Scope.length_thenStart (sc : Scope) (id : NodeId) (cond : StmtId) :
    (sc.thenStart id cond).body.length = sc.body.length + 1 := by
  simp [Scope.thenStart]

theorem Scope.length_elseStart (sc : Scope) (id : NodeId) :
    (sc.elseStart id).body.length = sc.body.length + 2 := by
  simp [Scope.elseStart, Scope.leave, Scope.thenEnd, Scope.restore]

theorem branch_cases {sc sc' : Scope}
    (h : branch id condition thenBranch elseBranch sc = .ok u sc') :
    ∃ cond sc₁ sc₂ sc₃, lowerExpr condition sc = .ok cond sc₁ ∧
      thenBranch (sc₁.thenStart id cond) = .ok () sc₂ ∧
      elseBranch (sc₂.elseStart id) = .ok () sc₃ ∧
      (((sc₂.thenEnd id).leave none).1.union ((sc₃.elseEnd id).leave sc₁.shadow?).1).names.forM
        (joinLocal ((sc₂.thenEnd id).leave none).1 ((sc₃.elseEnd id).leave sc₁.shadow?).1)
        ((sc₃.elseEnd id).leave sc₁.shadow?).2 = .ok u sc' := by
  obtain ⟨cond, sc₁, hc, h⟩ := bind_eq_ok.1 h
  change (thenBranch >>= fun _ => do
    jumpTo (doneLabel id)
    placeLabel (elseLabel id)
    let thenValues ← restore (← closeShadow none)
    let _ ← openShadow
    elseBranch
    placeLabel (doneLabel id)
    let elseValues ← restore (← closeShadow sc₁.shadow?)
    (thenValues.union elseValues).names.forM (joinLocal thenValues elseValues))
      (sc₁.thenStart id cond) = .ok u sc' at h
  obtain ⟨_, sc₂, ht, h⟩ := bind_eq_ok.1 h
  change (elseBranch >>= fun _ => do
    placeLabel (doneLabel id)
    let elseValues ← restore (← closeShadow sc₁.shadow?)
    (((sc₂.thenEnd id).leave none).1.union elseValues).names.forM
      (joinLocal ((sc₂.thenEnd id).leave none).1 elseValues)) (sc₂.elseStart id) = .ok u sc' at h
  obtain ⟨_, sc₃, he, h⟩ := bind_eq_ok.1 h
  exact ⟨cond, sc₁, sc₂, sc₃, hc, ht, he, h⟩

/-! ### Leaving a branch -/

section Leave

variable {start sc : Scope} {outer? : Option Bindings}

theorem Scope.appends_leave (sc : Scope) (outer? : Option Bindings) :
    sc.Appends [] (sc.leave outer?).2 := .of_eq rfl rfl

theorem Scope.locals_leave
    (h : Touched A (some .empty) start.locals.find? sc.shadow? sc.locals.find?)
    (outer? : Option Bindings) (x : String) :
    (sc.leave outer?).2.locals.find? x = start.locals.find? x := by
  obtain ⟨captured, hc, _⟩ := h.exists_level
  rw [leave, locals_restore, hc]
  exact h.or_eq hc x

theorem Scope.find?_leave {captured : Bindings} (hc : sc.shadow? = some captured)
    (outer? : Option Bindings) (x : String) : (sc.leave outer?).1.find? x =
      if (captured.find? x).isSome then sc.locals.find? x else none := by
  rw [leave, find?_restore, hc]
  rfl

section

variable (h : Touched A (some .empty) start.locals.find? sc.shadow? sc.locals.find?)
include h

/-- **A branch leaves something for a local** if and only if it touches the local. -/
theorem Scope.isSome_find?_leave (outer? : Option Bindings) (x : String) :
    ((sc.leave outer?).1.find? x).isSome = (A x && (start.locals.find? x).isSome) := by
  obtain ⟨captured, hc, hfind⟩ := h.exists_level
  rw [find?_leave hc, hfind]
  cases A x with
  | false => rfl
  | true => cases hb : start.locals.find? x <;> simp [h.domain x, hb]

theorem Scope.locals_of_find?_leave_eq_none (outer? : Option Bindings)
    (hx : (sc.leave outer?).1.find? x = none) :
    sc.locals.find? x = start.locals.find? x := by
  have hleave := isSome_find?_leave h outer? x
  rw [hx] at hleave
  cases hA : A x with
  | false => exact h.kept x hA
  | true =>
    have hnone : start.locals.find? x = none := by simpa [hA] using hleave
    rw [hnone, h.eq_none hnone]

theorem Scope.locals_eq_getD_leave (outer? : Option Bindings) {b : StmtId}
    (hx : start.locals.find? x = some b) :
    sc.locals.find? x = some (((sc.leave outer?).1.find? x).getD b) := by
  cases hv : (sc.leave outer?).1.find? x with
  | none =>
    rw [locals_of_find?_leave_eq_none h outer? hv, hx]
    rfl
  | some v =>
    obtain ⟨captured, hc, _⟩ := h.exists_level
    rw [find?_leave hc] at hv
    split at hv
    · exact hv
    · cases hv

end

end Leave

/-! ### The join of two branches -/

theorem joinLocal_cases {b : StmtId} {sc sc' : Scope} (hx : sc.locals.find? x = some b)
    (h : joinLocal thenValues elseValues x sc = .ok u sc') :
    MergeStep x b ((thenValues.find? x).getD b) ((elseValues.find? x).getD b) sc sc' := by
  simp only [joinLocal, bind_eq_ok, local?_eq_ok] at h
  obtain ⟨_, _, ⟨hb, hsc⟩, h⟩ := h
  rw [hb, hsc, hx] at h
  simp only [bind_eq_ok, emit_eq_ok, rebind_eq_ok] at h
  obtain ⟨_, _, ⟨rfl, rfl⟩, rfl⟩ := h
  exact ⟨rfl, rfl, fun y => Scope.locals_rebind .., Scope.capture_captures hx⟩

theorem forM_joinLocal {names : List String} (hd : names.Nodup) : ∀ {u : Unit} {sc sc' : Scope},
    (∀ x ∈ names, sc.locals.find? x = some (old x)) →
    names.forM (joinLocal thenValues elseValues) sc = .ok u sc' →
    Merges old (fun x => (thenValues.find? x).getD (old x))
      (fun x => (elseValues.find? x).getD (old x)) names sc sc' := by
  induction names with
  | nil =>
    intro u sc sc' _ h
    obtain ⟨_, rfl⟩ := pure_eq_ok.1 h
    exact .nil _
  | cons y ys ih =>
    intro u sc sc' hold h
    obtain ⟨hy, hd⟩ := nodup_cons.1 hd
    obtain ⟨_, sc₁, h₁, h₂⟩ := bind_eq_ok.1 h
    have hstep := joinLocal_cases (hold y mem_cons_self) h₁
    refine .cons hstep (ih hd (fun x hx => ?_) h₂)
    have hxy : x ≠ y := fun hc => hy (hc ▸ hx)
    rw [hstep.locals, if_neg hxy, hold x (mem_cons_of_mem _ hx)]

/-- The locals that are tied at the end of an `if`: those that a branch left something for. -/
def Scope.tiedWith (sc₂ sc₃ : Scope) : List String :=
  ((sc₂.leave none).1.union (sc₃.leave none).1).names

/-- What is joined at the end of an `if`. Both branches start with the bindings from before, and what
they end with is joined. -/
structure BranchJoins (id : NodeId) (sc₁ sc₂ sc₃ sc' : Scope) : Prop where
  thenBack : ∀ x, (sc₂.elseStart id).locals.find? x = sc₁.locals.find? x
  elseBack : ∀ x, ((sc₃.elseEnd id).leave sc₁.shadow?).2.locals.find? x = sc₁.locals.find? x
  joins : Joins (sc₂.tiedWith sc₃) sc₁.locals.find? sc₂.locals.find? sc₃.locals.find?
    ((sc₃.elseEnd id).leave sc₁.shadow?).2 sc'

theorem BranchJoins.parts {sc₁ sc₂ sc₃ sc' : Scope} (h : BranchJoins id sc₁ sc₂ sc₃ sc')
    (ht : (sc₁.thenStart id cond).body <+: sc₂.body) (he : (sc₂.elseStart id).body <+: sc₃.body)
    (hp : sc'.body <+: code) :
    (sc₁.thenStart id cond).body <+: code ∧ sc₂.body <+: code ∧ (sc₂.thenEnd id).body <+: code ∧
      sc₃.body <+: code ∧ (sc₃.elseEnd id).body <+: code := by
  have hpDone : (sc₃.elseEnd id).body <+: code := h.joins.appends.isPrefix.trans hp
  have hp₃ : sc₃.body <+: code := (prefix_append ..).trans hpDone
  have hpElse : (sc₂.thenEnd id).body <+: code := he.trans hp₃
  have hp₂ : sc₂.body <+: code :=
    ((prefix_append ..).trans (prefix_append ..)).trans hpElse
  exact ⟨ht.trans hp₂, hp₂, hpElse, hp₃, hpDone⟩

/-- **The branches of an `if` are joined.** -/
theorem branch_joins {sc₁ sc₂ sc₃ sc' : Scope}
    (ht : (sc₁.thenStart id cond).Evolves labels es sc₂)
    (he : (sc₂.elseStart id).Evolves labels' fs sc₃)
    (hj : (((sc₂.thenEnd id).leave none).1.union ((sc₃.elseEnd id).leave sc₁.shadow?).1).names.forM
      (joinLocal ((sc₂.thenEnd id).leave none).1 ((sc₃.elseEnd id).leave sc₁.shadow?).1)
      ((sc₃.elseEnd id).leave sc₁.shadow?).2 = .ok u sc') :
    BranchJoins id sc₁ sc₂ sc₃ sc' := by
  have htouched : Touched _ (some .empty) sc₁.locals.find? (sc₂.thenEnd id).shadow?
      (sc₂.thenEnd id).locals.find? := ht.touched
  have hthen : ∀ x, (sc₂.elseStart id).locals.find? x = sc₁.locals.find? x :=
    Scope.locals_leave htouched none
  have htouched' : Touched _ (some .empty) sc₁.locals.find? (sc₃.elseEnd id).shadow?
      (sc₃.elseEnd id).locals.find? := funext hthen ▸ he.touched
  have helse : ∀ x, ((sc₃.elseEnd id).leave sc₁.shadow?).2.locals.find? x = sc₁.locals.find? x :=
    Scope.locals_leave htouched' sc₁.shadow?
  refine ⟨hthen, helse, ?_⟩
  let thenValues := ((sc₂.thenEnd id).leave none).1
  let elseValues := ((sc₃.elseEnd id).leave sc₁.shadow?).1
  let old : String → StmtId := fun x => (sc₁.locals.find? x).getD 0
  have hold : ∀ x ∈ (thenValues.union elseValues).names, sc₁.locals.find? x = some (old x) := by
    intro x hx
    rw [Bindings.mem_names, Bindings.find?_union, isSome_or,
      Scope.isSome_find?_leave htouched, Scope.isSome_find?_leave htouched',
      ← Bool.and_or_distrib_right, Bool.and_eq_true] at hx
    obtain ⟨b, hb⟩ := isSome_iff_exists.1 hx.2
    simp [old, hb]
  have hmerges := forM_joinLocal (thenValues.union elseValues).nodup_names
    (fun x hx => (helse x).trans (hold x hx)) hj
  refine ⟨_, _, _, Bindings.nodup_names _, hmerges, fun x hx => ?_, fun x hx => ?_⟩
  · exact ⟨hold x hx, Scope.locals_eq_getD_leave htouched none (hold x hx),
      Scope.locals_eq_getD_leave htouched' sc₁.shadow? (hold x hx)⟩
  · have hnone : elseValues.find? x = none ∧ thenValues.find? x = none := by
      change x ∉ (thenValues.union elseValues).names at hx
      simpa [Bindings.mem_names] using hx
    rw [helse x]
    exact ⟨rfl, Scope.locals_of_find?_leave_eq_none htouched none hnone.2,
      Scope.locals_of_find?_leave_eq_none htouched' sc₁.shadow? hnone.1⟩

/-- **An `if` touches what its branches touch.** -/
theorem BranchJoins.touched {sc₁ sc₂ sc₃ sc' : Scope} (h : BranchJoins id sc₁ sc₂ sc₃ sc')
    (ht : (sc₁.thenStart id cond).Evolves labels es sc₂)
    (he : (sc₂.elseStart id).Evolves labels' fs sc₃) :
    Touched (fun x => (es ++ fs).any (·.assigns x)) sc₁.shadow? sc₁.locals.find? sc'.shadow?
      sc'.locals.find? := by
  have hthen : Touched _ (some .empty) sc₁.locals.find? sc₂.shadow? sc₂.locals.find? := ht.touched
  have helse : Touched _ (some .empty) sc₁.locals.find? sc₃.shadow? sc₃.locals.find? :=
    funext h.thenBack ▸ he.touched
  refine h.joins.touched.congr fun x hx => ?_
  rw [Bool.eq_iff_iff, contains_iff_mem, Scope.tiedWith, Bindings.mem_names, Bindings.find?_union,
    isSome_or, Scope.isSome_find?_leave helse, Scope.isSome_find?_leave hthen]
  simp [hx, or_comm]

theorem branch_evolves
    (ht : ∀ {sc sc' : Scope}, thenBranch sc = .ok () sc' → sc.Evolves labels es sc')
    (he : ∀ {sc sc' : Scope}, elseBranch sc = .ok () sc' → sc.Evolves labels' fs sc')
    {sc sc' : Scope} (h : branch id condition thenBranch elseBranch sc = .ok u sc') :
    sc.Evolves (labels ++ elseLabel id :: (labels' ++ [doneLabel id])) (condition :: (es ++ fs))
      sc' := by
  obtain ⟨cond, sc₁, sc₂, sc₃, hc, ht', he', hj⟩ := branch_cases h
  have hc := lowerExpr_evolves hc
  have ht := ht ht'
  have he := he he'
  have hbranch := branch_joins ht he hj
  refine ⟨?_, (hc.touched.trans (hbranch.touched ht he)).congr fun x _ => by simp⟩
  have hstart : sc₁.Appends [] (sc₁.thenStart id cond) := .emit sc₁ _ _ _ (by simp)
  have hmid : sc₂.Appends [elseLabel id] (sc₂.thenEnd id) :=
    (Scope.Appends.emit sc₂ _ _ _ (by simp)).trans (.emit_label ..)
  have hend : sc₃.Appends [doneLabel id] (sc₃.elseEnd id) := .emit_label ..
  have hleave : (sc₂.thenEnd id).Appends [] (sc₂.elseStart id) := .of_eq rfl rfl
  have := ((((hc.appends.trans hstart).trans ht.appends).trans (hmid.trans hleave)).trans
    (he.appends.trans hend)).trans ((Scope.appends_leave _ sc₁.shadow?).trans hbranch.joins.appends)
  simpa using this

end Branch

/-! ## Loops -/

section Loop

variable {id : NodeId} {condition : Expr} {labels : List String}

def Scope.loopStart (sc : Scope) (id : NodeId) : Scope :=
  (Scope.emit { sc with shadow? := some .empty } .label none none (.label (startLabel id))).2

def Scope.bodyStart (sc : Scope) (id : NodeId) (cond : StmtId) : Scope :=
  (Scope.emit { sc with shadow? := some .empty } .branchUnless (some cond) none
    (.label (endLabel id))).2

/-- The scope after the body of a loop, its jump back and the label after it. -/
def Scope.bodyEnd (sc : Scope) (id : NodeId) : Scope :=
  ((sc.emit .jump none none (.label (startLabel id))).2.emit .label none none
    (.label (endLabel id))).2

theorem Scope.length_loopStart (sc : Scope) (id : NodeId) :
    (sc.loopStart id).body.length = sc.body.length + 1 := by
  simp [Scope.loopStart]

theorem Scope.length_bodyStart (sc : Scope) (id : NodeId) (cond : StmtId) :
    (sc.bodyStart id cond).body.length = sc.body.length + 1 := by
  simp [Scope.bodyStart]

def Scope.mergeLevel (sc : Scope) (outer? : Option Bindings) : Scope :=
  Scope.mergeUp { sc with shadow? := outer? } (sc.shadow?.getD .empty)

/-- Closes the two levels of a loop. A condition level that captured nothing is skipped. -/
def Scope.closeLoop (sc : Scope) (level? outer? : Option Bindings) : Scope :=
  match level? with
  | some level =>
    if level.isEmpty then sc.mergeLevel outer? else (sc.mergeLevel (some level)).mergeLevel outer?
  | none => sc.mergeLevel outer?

/-- The locals that are tied when a level is closed: those that the level captured. -/
def Scope.tiedByLevel (sc : Scope) : List String := (sc.shadow?.getD .empty).names

def Scope.tiedByLoop (sc : Scope) (level? : Option Bindings) : List String :=
  match level? with
  | some level =>
    if level.isEmpty then sc.tiedByLevel
    else sc.tiedByLevel ++ (sc.mergeLevel (some level)).tiedByLevel
  | none => sc.tiedByLevel

theorem loop_cases {sc sc' : Scope} (h : loop id condition body sc = .ok u sc') :
    ∃ cond sc₁ sc₂, lowerExpr condition (sc.loopStart id) = .ok cond sc₁ ∧
      body (sc₁.bodyStart id cond) = .ok () sc₂ ∧
      sc' = (sc₂.bodyEnd id).closeLoop sc₁.shadow? sc.shadow? := by
  change (lowerExpr condition >>= fun cond => do
    let conditionLevel? ← openShadow
    jumpUnless cond (endLabel id)
    body
    jumpTo (startLabel id)
    placeLabel (endLabel id)
    match conditionLevel? with
    | some level =>
      if level.isEmpty then
        mergeUp (← closeShadow sc.shadow?)
      else
        mergeUp (← closeShadow (some level))
        mergeUp (← closeShadow sc.shadow?)
    | none => mergeUp (← closeShadow sc.shadow?)) (sc.loopStart id) = .ok u sc' at h
  obtain ⟨cond, sc₁, hc, h⟩ := bind_eq_ok.1 h
  change (body >>= fun _ => do
    jumpTo (startLabel id)
    placeLabel (endLabel id)
    match sc₁.shadow? with
    | some level =>
      if level.isEmpty then
        mergeUp (← closeShadow sc.shadow?)
      else
        mergeUp (← closeShadow (some level))
        mergeUp (← closeShadow sc.shadow?)
    | none => mergeUp (← closeShadow sc.shadow?)) (sc₁.bodyStart id cond) =
      .ok u sc' at h
  obtain ⟨_, sc₂, hb, h⟩ := bind_eq_ok.1 h
  refine ⟨cond, sc₁, sc₂, hc, hb, ?_⟩
  cases hl : sc₁.shadow? with
  | none =>
    rw [hl] at h
    exact (EStateM.Result.ok.inj h).2.symm
  | some level =>
    rw [hl] at h
    by_cases hempty : level.isEmpty = true
    · simp only [Scope.closeLoop, if_pos hempty] at h ⊢
      exact (EStateM.Result.ok.inj h).2.symm
    · simp only [Scope.closeLoop, if_neg hempty] at h ⊢
      exact (EStateM.Result.ok.inj h).2.symm

/-! ### Closing a level -/

theorem Scope.mergeLocal_step {sc : Scope} {new : StmtId} (hx : sc.locals.find? x = some new)
    (old : StmtId) : MergeStep x old old new sc (sc.mergeLocal x old) := by
  have hinsert : (sc.locals.insert x old).find? x = some old := by simp
  rw [mergeLocal, hx]
  refine ⟨rfl, rfl, fun y => ?_, ?_⟩
  · by_cases hy : y = x
    · simp [hy]
    · simp [hy]
  · exact @capture_captures x old { sc with locals := sc.locals.insert x old } hinsert

theorem foldl_mergeLocal {right : String → StmtId} {es : List (String × StmtId)}
    (hd : (es.map (·.1)).Nodup) : ∀ {sc : Scope},
    (∀ e ∈ es, e.2 = old e.1 ∧ sc.locals.find? e.1 = some (right e.1)) →
    Merges old old right (es.map (·.1)) sc
      (es.foldl (fun sc (e : String × StmtId) => sc.mergeLocal e.1 e.2) sc) := by
  induction es with
  | nil => exact fun _ => .nil _
  | cons e es ih =>
    intro sc h
    obtain ⟨he, hd⟩ := nodup_cons.1 hd
    obtain ⟨hold, hright⟩ := h e mem_cons_self
    have hstep := Scope.mergeLocal_step hright (old e.1)
    rw [map_cons, foldl_cons, hold]
    refine .cons hstep (ih hd fun f hf => ?_)
    have hne : f.1 ≠ e.1 := fun hc => he (mem_map.2 ⟨f, hf, hc⟩)
    rw [hstep.locals, if_neg hne]
    exact h f (mem_cons_of_mem _ hf)

section

variable {before : String → Option StmtId} {sc : Scope}
  (h : Touched A (some .empty) before sc.shadow? sc.locals.find?) (outer? : Option Bindings)
include h

theorem Scope.mergeLevel_joins : Joins sc.tiedByLevel before before sc.locals.find?
    { sc with shadow? := outer? } (sc.mergeLevel outer?) := by
  obtain ⟨captured, hc, _⟩ := h.exists_level
  let old : String → StmtId := fun x => (captured.find? x).getD 0
  let right : String → StmtId := fun x => (sc.locals.find? x).getD 0
  have hold : ∀ x ∈ captured.names, before x = some (old x) := by
    intro x hx
    obtain ⟨b, hb⟩ := isSome_iff_exists.1 (Bindings.mem_names.1 hx)
    rw [h.eq_of_captured hc hb]
    simp [old, hb]
  have hright : ∀ x ∈ captured.names, sc.locals.find? x = some (right x) := by
    intro x hx
    have hsome : (sc.locals.find? x).isSome = true := by
      rw [h.domain x, hold x hx]
      rfl
    obtain ⟨b, hb⟩ := isSome_iff_exists.1 hsome
    simp [right, hb]
  have hmerges : Merges old old right captured.names { sc with shadow? := outer? }
      (sc.mergeLevel outer?) := by
    rw [mergeLevel, hc]
    refine foldl_mergeLocal captured.nodup_names fun e he => ⟨?_, ?_⟩
    · have hfind : captured.find? e.1 = some e.2 := Bindings.mem_entries.1 he
      simp [old, hfind]
    · exact hright e.1 (mem_map_of_mem he)
  rw [tiedByLevel, hc]
  refine ⟨_, _, _, captured.nodup_names, hmerges, fun x hx => ?_, fun x hx => ?_⟩
  · exact ⟨hold x hx, hold x hx, hright x hx⟩
  · have hnone : captured.find? x = none := by simpa [Bindings.mem_names] using hx
    have heq := h.eq_of_not_captured hc hnone
    exact ⟨heq.symm, heq.symm, rfl⟩

/-- **A level that is closed into another passes on what it touched.** -/
theorem Scope.mergeLevel_touched : Touched A outer? before (sc.mergeLevel outer?).shadow?
    (sc.mergeLevel outer?).locals.find? := by
  refine (mergeLevel_joins h outer?).touched.congr fun x hx => ?_
  obtain ⟨captured, hc, hfind⟩ := h.exists_level
  rw [Bool.eq_iff_iff, contains_iff_mem, tiedByLevel, hc, getD_some, Bindings.mem_names,
    hfind]
  cases A x <;> simp [hx]

end

/-- What is joined at the end of a loop. The bindings after the condition are joined with those after
the body, and then with those from before the loop, unless the condition changes nothing. -/
def LoopJoins (id : NodeId) (sc sc₁ sc₂ sc' : Scope) : Prop :=
  (sc₁.locals.find? = sc.locals.find? ∧
    Joins ((sc₂.bodyEnd id).tiedByLoop sc₁.shadow?) sc₁.locals.find? sc₁.locals.find?
      sc₂.locals.find? { sc₂.bodyEnd id with shadow? := sc.shadow? } sc') ∨
  ∃ (mid : Scope) (names names' : List String),
    (sc₂.bodyEnd id).tiedByLoop sc₁.shadow? = names ++ names' ∧
    Joins names sc₁.locals.find? sc₁.locals.find? sc₂.locals.find?
      { sc₂.bodyEnd id with shadow? := sc₁.shadow? } mid ∧
    Joins names' sc.locals.find? sc.locals.find? mid.locals.find?
      { mid with shadow? := sc.shadow? } sc'

theorem LoopJoins.exists_code {sc sc₁ sc₂ sc' : Scope} (h : LoopJoins id sc sc₁ sc₂ sc') :
    ∃ ties, sc'.body = (sc₂.bodyEnd id).body ++ ties ∧ ∀ s ∈ ties, s.op = .unify := by
  rcases h with ⟨_, hj⟩ | ⟨mid, _, _, _, hj, hj'⟩
  · exact hj.exists_code
  · obtain ⟨ties, hbody, hties⟩ := hj.exists_code
    obtain ⟨ties', hbody', hties'⟩ := hj'.exists_code
    refine ⟨ties ++ ties', ?_, forall_mem_append.2 ⟨hties, hties'⟩⟩
    rw [hbody', ← append_assoc]
    exact congrArg (· ++ ties') hbody

theorem LoopJoins.parts {sc sc₁ sc₂ sc' : Scope} (h : LoopJoins id sc sc₁ sc₂ sc')
    (hc : (sc.loopStart id).body <+: sc₁.body) (hb : (sc₁.bodyStart id cond).body <+: sc₂.body)
    (hp : sc'.body <+: code) :
    (sc.loopStart id).body <+: code ∧ sc₁.body <+: code ∧ (sc₁.bodyStart id cond).body <+: code ∧
      sc₂.body <+: code ∧ (sc₂.bodyEnd id).body <+: code := by
  obtain ⟨ties, hties, _⟩ := h.exists_code
  have hpEnd : (sc₂.bodyEnd id).body <+: code := (hties ▸ prefix_append ..).trans hp
  have hp₂ : sc₂.body <+: code := ((prefix_append ..).trans (prefix_append ..)).trans hpEnd
  have hpBody : (sc₁.bodyStart id cond).body <+: code := hb.trans hp₂
  have hp₁ : sc₁.body <+: code := (prefix_append ..).trans hpBody
  exact ⟨hc.trans hp₁, hp₁, hpBody, hp₂, hpEnd⟩

section

variable {sc sc₁ sc₂ : Scope} (hc : (sc.loopStart id).Evolves [] es sc₁)
  (hb : (sc₁.bodyStart id cond).Evolves labels fs sc₂)
include hc hb

/-- **The paths through a loop are joined.** -/
theorem loop_joins :
    LoopJoins id sc sc₁ sc₂ ((sc₂.bodyEnd id).closeLoop sc₁.shadow? sc.shadow?) := by
  have hcond : Touched _ (some .empty) sc.locals.find? sc₁.shadow? sc₁.locals.find? := hc.touched
  have hbody : Touched _ (some .empty) sc₁.locals.find? (sc₂.bodyEnd id).shadow?
      (sc₂.bodyEnd id).locals.find? := hb.touched
  obtain ⟨level, hl, _⟩ := hcond.exists_level
  by_cases hempty : level.isEmpty = true
  · left
    refine ⟨funext fun x => hcond.eq_of_not_captured hl (Bindings.isEmpty_iff.1 hempty x), ?_⟩
    simp only [hl, Scope.closeLoop, Scope.tiedByLoop, if_pos hempty]
    exact Scope.mergeLevel_joins hbody sc.shadow?
  · right
    refine ⟨_, _, ((sc₂.bodyEnd id).mergeLevel (some level)).tiedByLevel, ?_,
      hl ▸ Scope.mergeLevel_joins hbody (some level), ?_⟩
    · simp only [hl, Scope.tiedByLoop, if_neg hempty]
    simp only [hl, Scope.closeLoop, if_neg hempty]
    rw [hl] at hcond
    exact Scope.mergeLevel_joins (hcond.trans (Scope.mergeLevel_touched hbody (some level))) _

/-- **A loop touches what its condition and its body touch.** A condition level that captured nothing
has nothing to pass on. -/
theorem loop_touched : Touched (fun x => (es ++ fs).any (·.assigns x)) sc.shadow? sc.locals.find?
    ((sc₂.bodyEnd id).closeLoop sc₁.shadow? sc.shadow?).shadow?
    ((sc₂.bodyEnd id).closeLoop sc₁.shadow? sc.shadow?).locals.find? := by
  have hcond : Touched _ (some .empty) sc.locals.find? sc₁.shadow? sc₁.locals.find? := hc.touched
  have hbody : Touched _ (some .empty) sc₁.locals.find? (sc₂.bodyEnd id).shadow?
      (sc₂.bodyEnd id).locals.find? := hb.touched
  obtain ⟨level, hl, hfind⟩ := hcond.exists_level
  by_cases hempty : level.isEmpty = true
  · have hlevel := Bindings.isEmpty_iff.1 hempty
    have heq : sc₁.locals.find? = sc.locals.find? := funext fun x =>
      hcond.eq_of_not_captured hl (hlevel x)
    simp only [hl, Scope.closeLoop, if_pos hempty]
    refine (heq ▸ Scope.mergeLevel_touched hbody sc.shadow?).congr fun x hx => ?_
    have hes : es.any (·.assigns x) = false := by
      have hnone := hfind x
      rw [hlevel] at hnone
      split at hnone
      · rw [← hnone] at hx
        cases hx
      · exact Bool.eq_false_iff.2 ‹_›
    rw [any_append, hes, Bool.false_or]
  · simp only [hl, Scope.closeLoop, if_neg hempty]
    rw [hl] at hcond
    refine (Scope.mergeLevel_touched
      (hcond.trans (Scope.mergeLevel_touched hbody (some level))) _).congr fun x _ => ?_
    rw [any_append]

end

theorem LoopJoins.appends {sc sc₁ sc₂ sc' : Scope} (h : LoopJoins id sc sc₁ sc₂ sc') :
    (sc₂.bodyEnd id).Appends [] sc' := by
  rcases h with ⟨_, hj⟩ | ⟨mid, _, _, _, hj, hj'⟩
  · exact hj.appends
  · exact hj.appends.trans hj'.appends

theorem loop_evolves (hb : ∀ {sc sc' : Scope}, body sc = .ok () sc' → sc.Evolves labels es sc')
    {sc sc' : Scope} (h : loop id condition body sc = .ok u sc') :
    sc.Evolves (startLabel id :: (labels ++ [endLabel id])) (condition :: es) sc' := by
  obtain ⟨cond, sc₁, sc₂, hc, hb', rfl⟩ := loop_cases h
  have hc := lowerExpr_evolves hc
  have hb := hb hb'
  have hstart : sc.Appends [startLabel id] (sc.loopStart id) := .emit_label ..
  have hmid : sc₁.Appends [] (sc₁.bodyStart id cond) :=
    .emit { sc₁ with shadow? := some .empty } _ _ _ (by simp)
  have hend : sc₂.Appends [endLabel id] (sc₂.bodyEnd id) :=
    (Scope.Appends.emit sc₂ _ _ _ (by simp)).trans (.emit_label ..)
  have hcode := (((hstart.trans hc.appends).trans hmid).trans hb.appends).trans hend
  refine ⟨?_, loop_touched hc hb⟩
  simpa using hcode.trans (loop_joins hc hb).appends

end Loop

/-! ## Statements -/

end MiniJava.Ssa

namespace MiniJava.Ast

open Ssa

mutual

/-- The expressions of a statement, with those of its parts. -/
def Stmt.exprs : Stmt → List Expr
  | .block stmts => stmtsExprs stmts
  | .ifThen _ condition thenBranch => condition :: thenBranch.exprs
  | .ifElse _ condition thenBranch elseBranch =>
    condition :: (thenBranch.exprs ++ elseBranch.exprs)
  | .while _ condition body => condition :: body.exprs
  | .print value => [value]
  | .expr value => [value]

def stmtsExprs : List Stmt → List Expr
  | [] => []
  | s :: ss => s.exprs ++ stmtsExprs ss

end

mutual

def Stmt.labels : Stmt → List String
  | .block stmts => stmtsLabels stmts
  | .ifThen id _ thenBranch => thenBranch.labels ++ [elseLabel id, doneLabel id]
  | .ifElse id _ thenBranch elseBranch =>
    thenBranch.labels ++ elseLabel id :: (elseBranch.labels ++ [doneLabel id])
  | .while id _ body => startLabel id :: (body.labels ++ [endLabel id])
  | .print _ | .expr _ => []

def stmtsLabels : List Stmt → List String
  | [] => []
  | s :: ss => s.labels ++ stmtsLabels ss

end

end MiniJava.Ast

namespace MiniJava.Ssa

open Ast

theorem pure_evolves {sc sc' : Scope} (h : (pure () : Build Unit) sc = .ok () sc') :
    sc.Evolves [] [] sc' := by
  obtain ⟨_, rfl⟩ := Build.pure_eq_ok.1 h
  exact .refl _

mutual

/-- **Lowering a statement is an evolution of the scope.** -/
theorem lowerStmt_evolves (s : Stmt) {sc sc' : Scope} (h : lowerStmt s sc = .ok u sc') :
    sc.Evolves s.labels s.exprs sc' := by
  match s with
  | .block stmts =>
    rw [lowerStmt] at h
    rw [Stmt.labels, Stmt.exprs]
    exact lowerStmts_evolves stmts h
  | .ifThen id condition thenBranch =>
    rw [lowerStmt] at h
    rw [Stmt.labels, Stmt.exprs]
    simpa using branch_evolves (lowerStmt_evolves thenBranch) pure_evolves h
  | .ifElse id condition thenBranch elseBranch =>
    rw [lowerStmt] at h
    rw [Stmt.labels, Stmt.exprs]
    exact branch_evolves (lowerStmt_evolves thenBranch) (lowerStmt_evolves elseBranch) h
  | .while id condition body =>
    rw [lowerStmt] at h
    rw [Stmt.labels, Stmt.exprs]
    exact loop_evolves (lowerStmt_evolves body) h
  | .print value =>
    simp only [lowerStmt, Build.bind_eq_ok, Build.emit_eq_ok, Build.pure_eq_ok] at h
    obtain ⟨v, sc₁, hv, _, _, ⟨_, rfl⟩, _, rfl⟩ := h
    rw [Stmt.labels, Stmt.exprs]
    exact (lowerExpr_evolves hv).emit _ _ _ (by simp)
  | .expr value =>
    simp only [lowerStmt, Build.bind_eq_ok, Build.pure_eq_ok] at h
    obtain ⟨v, sc₁, hv, _, rfl⟩ := h
    rw [Stmt.labels, Stmt.exprs]
    exact lowerExpr_evolves hv

theorem lowerStmts_evolves (ss : List Stmt) {sc sc' : Scope} (h : lowerStmts ss sc = .ok u sc') :
    sc.Evolves (stmtsLabels ss) (stmtsExprs ss) sc' := by
  match ss with
  | [] =>
    obtain ⟨_, rfl⟩ := Build.pure_eq_ok.1 (by rwa [lowerStmts] at h)
    rw [stmtsLabels, stmtsExprs]
    exact .refl _
  | s :: ss =>
    rw [lowerStmts] at h
    obtain ⟨_, sc₁, h₁, h₂⟩ := Build.bind_eq_ok.1 h
    rw [stmtsLabels, stmtsExprs]
    exact (lowerStmt_evolves s h₁).trans (lowerStmts_evolves ss h₂)

end

/-- **Lowering touches the locals that are assigned,** and no others: what an expression or a statement
does to the bindings and to the open level is told by the assignments in it. -/
theorem assigned_locals_are_touched {sc sc' : Scope} :
    (∀ (e : Expr) (id : StmtId), lowerExpr e sc = .ok id sc' →
      Touched e.assigns sc.shadow? sc.locals.find? sc'.shadow? sc'.locals.find? ∧
        (e.hasAssignment = false → sc'.locals.find? = sc.locals.find?)) ∧
    ∀ s : Stmt, lowerStmt s sc = .ok () sc' →
      Touched (fun x => s.exprs.any (·.assigns x)) sc.shadow? sc.locals.find? sc'.shadow?
        sc'.locals.find? := by
  refine ⟨fun e id h => ?_, fun s h => (lowerStmt_evolves s h).touched⟩
  have htouched : Touched e.assigns sc.shadow? sc.locals.find? sc'.shadow? sc'.locals.find? :=
    (lowerExpr_evolves h).touched.congr fun x _ => by simp
  refine ⟨htouched, fun hnone => funext fun x => htouched.kept x ?_⟩
  cases hx : e.assigns x with
  | false => rfl
  | true => rw [Expr.hasAssignment_of_assigns hx] at hnone; cases hnone

/-- A loop whose condition and whose body assign. The open level has an entry for `k` already. -/
theorem assigned_locals_are_touched_loop :
    let sc : Scope := { locals := .ofList [("k", 3), ("n", 4), ("total", 5)],
                        shadow? := some (.ofList [("k", 1)]) }
    let s : Stmt := .while 0 (.binary .lt (.intLit 0) (.assign (.var "n") (.var "total")))
      (.ifThen 1 (.boolLit true) (.expr (.assign (.var "k") (.assign (.var "n") (.var "k")))))
    ∃ sc', lowerStmt s sc = .ok () sc' ∧ entry? sc'.shadow? "k" = some (some 1) ∧
      entry? sc'.shadow? "n" = some (some 4) ∧ entry? sc'.shadow? "total" = some none := by
  intro sc s
  obtain ⟨_, sc', h⟩ : ∃ u sc', lowerStmt s sc = .ok u sc' :=
    Build.exists_of_succeeds (by decide +kernel)
  have htouched := assigned_locals_are_touched.2 s h
  refine ⟨sc', h, (htouched.level "k").trans ?_, (htouched.level "n").trans ?_,
    (htouched.level "total").trans ?_⟩ <;> decide +kernel

end MiniJava.Ssa
